-- Path conditions. A branch target holds what its split's source holds, then
-- what the split assumes for all branches, then what its own branch assumes.
-- Nothing is left out as a repetition, so the condition of a target can be
-- told from its split alone.
import StateGraph.Graph.Update
import StateGraph.Graph.SplitOrder

namespace StateGraph

namespace Graph

/-- The split that a target takes its path condition from: of all splits onto
it, the one with the lowest source. -/
def governorOf (g : Graph) (target : NodeId) : Option NodeId := (g.splitSourcesOf target).head?

end Graph

namespace Update

/-- Gives a node a path condition, and counts it if that is new. -/
def assign (id : NodeId) (constraints : List Formula) : Update Nat := do
  let g ← get
  let c ← ofExcept (g.config id)
  if c.constraints = constraints then return 0
  set { g with nodes := g.nodes.insert id (c.withConstraints constraints) }
  return 1

/-- Gives path conditions to the targets that the split of a source governs,
and counts those that are new. -/
def settleSplit (source : NodeId) : Update Nat := do
  let g ← get
  match g.splits.get? source with
  | none => return 0
  | some cases =>
    let c ← ofExcept (g.config source)
    let assumed := c.constraints ++ cases.shared.constraints
    let governed := cases.guards.toList.filter fun e => g.governorOf e.1 == some source
    governed.foldlM (fun changed e => do
      return changed + (← assign e.1 (assumed ++ e.2.constraints))) 0

/-- Works off all splits in order, and counts the nodes whose path condition
changed. -/
def propagate : Update Nat := do
  match splitOrder (← get).splits with
  | .error _ => throw (.structuralConflict .splitsCyclic)
  | .ok order => order.foldlM (fun changed source => do
      return changed + (← settleSplit source)) 0

/-! ## Changes that move path conditions -/

/-- Takes a node out with every edge, cover and branch that touches it. -/
def removeNode (id : NodeId) : Update Config := do
  let (c, splitsChanged) ← detachNode id
  if splitsChanged then
    let _ ← propagate
  return c

/-- Adds a split. Its targets may belong to no other. -/
def createSplit (source : NodeId) (cases : Cases) : Update Cases := do
  attachSplit source cases false
  let _ ← propagate
  demand (.split source) ((← get).splits.get? source)

def removeSplit (source : NodeId) : Update Cases := do
  let g ← get
  let cases ← demand (.split source) (g.splits.get? source)
  set { g with splits := g.splits.erase source }
  let _ ← propagate
  return cases

end Update

end StateGraph
