-- The order in which splits are worked off: a split comes after every split
-- that branches to its source, and of those free to come the lowest is first.
-- Nodes are taken one at a time, each once no split onto it is left; a cycle
-- of splits never comes to its turn.
import StateGraph.Graph.Basic

namespace StateGraph

/-- Why splits have no order. -/
inductive OrderFault where
  /-- Some nodes never come to their turn. -/
  | cyclic
  /-- More splits onto a node were worked off than there are. -/
  | overdrawn (id : NodeId)
  deriving DecidableEq

namespace SplitOrder

/-- How many splits onto each node are still to be worked off. -/
abbrev Pending := Table NodeId Nat

/-- All sources and targets, each with the number of splits onto it. -/
def pending (splits : Table NodeId Cases) : Pending :=
  (SortedSet.ofList (splits.keys ++ splits.toList.flatMap fun e => e.2.targets)).mapValues
    fun id _ => splits.toList.countP fun e => e.2.guards.contains id

/-- One split onto a node has been worked off. -/
def settle (p : Pending) (id : NodeId) : Except OrderFault Pending :=
  match p.get? id with
  | some (n + 1) => .ok (p.insert id n)
  | _ => .error (.overdrawn id)

/-- Takes the lowest node that no split onto it is left of, until none
remains. At most `room` nodes can be taken. -/
def takeTurns (splits : Table NodeId Cases) : Nat → Pending → Except OrderFault (List NodeId)
  | 0, p => if p.isEmpty then .ok [] else .error .cyclic
  | room + 1, p =>
    match p.toList.find? (·.2 == 0) with
    | none => if p.isEmpty then .ok [] else .error .cyclic
    | some (id, _) =>
      match splits.get? id with
      | none => takeTurns splits room (p.erase id)
      | some cases => do
        let p ← cases.targets.foldlM settle (p.erase id)
        return id :: (← takeTurns splits room p)

end SplitOrder

/-- The sources of splits, each after the sources of all splits onto it. -/
def splitOrder (splits : Table NodeId Cases) : Except OrderFault (List NodeId) :=
  let p := SplitOrder.pending splits
  SplitOrder.takeTurns splits p.size p

end StateGraph
