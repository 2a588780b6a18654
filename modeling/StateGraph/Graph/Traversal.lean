-- Walking a graph: the neighbours of a node, the nodes that lead nowhere, and
-- everything a node leads to.
import StateGraph.Graph.Basic

namespace StateGraph

/-- Takes waiting nodes one at a time, from the front. A node that was met before is passed
over. Any other is met now, and `push` tells what waits from then on. -/
def search (push : NodeId → SortedSet NodeId → List NodeId → List NodeId) :
    Nat → List NodeId → SortedSet NodeId → SortedSet NodeId
  | 0, _, met => met
  | _ + 1, [], met => met
  | steps + 1, id :: rest, met =>
    if id ∈ met then search push steps rest met
    else search push steps (push id (met.insert id ()) rest) (met.insert id ())

/-- The same search, given up as soon as it takes the goal. -/
def searchFor (push : NodeId → SortedSet NodeId → List NodeId → List NodeId) (goal : NodeId) :
    Nat → List NodeId → SortedSet NodeId → Bool
  | 0, _, _ => false
  | _ + 1, [], _ => false
  | steps + 1, id :: rest, met =>
    if id = goal then true
    else if id ∈ met then searchFor push goal steps rest met
    else searchFor push goal steps (push id (met.insert id ()) rest) (met.insert id ())

/-- A queue: neighbours that were not met yet wait behind the rest. -/
def enqueue (neighbours : NodeId → List NodeId) (id : NodeId) (met : SortedSet NodeId)
    (rest : List NodeId) : List NodeId :=
  rest ++ (neighbours id).filter fun t => !met.contains t

/-- A stack: all neighbours wait before the rest, the last of them first. -/
def stack (neighbours : NodeId → List NodeId) (id : NodeId) (_met : SortedSet NodeId)
    (rest : List NodeId) : List NodeId :=
  (neighbours id).reverse ++ rest

/-- How many nodes a search may have to take, those that it starts with among them: each
node lets its neighbours wait once. -/
def searchSteps (neighbours : NodeId → List NodeId) (all start : List NodeId) : Nat :=
  start.length + (all.flatMap neighbours).length

namespace Graph

def splitTargets (g : Graph) (id : NodeId) : List NodeId :=
  ((g.splits.get? id).map Cases.targets).getD []

/-- The nodes right after a node, each once: the targets of its edges, then of
its covers, then of its split. -/
def successors (g : Graph) (id : NodeId) : List NodeId :=
  let edgeTargets := (g.edgesWhere (some id) none).map (·.1.target)
  let coverTargets := (g.coversWhere (some id) none).map (·.1.target)
  (edgeTargets ++ coverTargets ++ g.splitTargets id).foldl
    (fun out t => if t ∈ out then out else out ++ [t]) []

/-- The nodes right before a node, ascending. -/
def predecessors (g : Graph) (id : NodeId) : List NodeId :=
  let edgeSources := (g.edgesWhere none (some id)).map (·.1.source)
  let coverSources := (g.coversWhere none (some id)).map (·.1.source)
  (SortedSet.ofList (edgeSources ++ coverSources ++ g.splitSourcesOf id)).keys

/-- The nodes without successors, ascending. -/
def leaves (g : Graph) : List NodeId :=
  g.nodes.keys.filter fun id => (g.successors id).isEmpty

/-- Every node that a node leads to in any number of steps, itself among them. -/
def reachable (g : Graph) (start : NodeId) : Except Error (SortedSet NodeId) := do
  let _ ← g.config start
  let steps := searchSteps g.successors g.nodes.keys [start]
  return search (enqueue g.successors) steps [start] ∅

/-- Some of the nodes given leads to the goal through splits alone. -/
def splitsLeadTo (g : Graph) (start : List NodeId) (goal : NodeId) : Bool :=
  let steps := searchSteps g.splitTargets g.nodes.keys start
  searchFor (stack g.splitTargets) goal steps start.reverse ∅

end Graph

end StateGraph
