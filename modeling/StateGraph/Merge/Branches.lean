-- The branches that merging is about. A split qualifies when each of its
-- branches belongs to it alone and goes on by exactly one edge, which leads
-- out of the split.
import StateGraph.Graph.Basic

namespace StateGraph

/-- A branch of a qualifying split, with the edge by which it goes on. -/
structure Branch where
  node : NodeId
  /-- The configuration of the node. -/
  config : Config
  guard : Effect
  /-- The chain of its edge. -/
  steps : Chain
  /-- Where its edge leads. -/
  target : NodeId
  deriving DecidableEq, Inhabited

/-- A qualifying split as it stands, its branches by ascending node. -/
structure BranchSet where
  source : NodeId
  shared : Effect
  branches : List Branch
  deriving DecidableEq, Inhabited

namespace Graph

/-- A branch as merging needs it, if it has the form. -/
def branch? (g : Graph) (source : NodeId) (cases : Cases) (node : NodeId) (guard : Effect) :
    Option Branch :=
  if g.splitSourcesOf node ≠ [source] then none
  else if g.splits.contains node || !(g.coversWhere (some node) none).isEmpty then none
  else
    match g.edgesWhere (some node) none with
    | [(l, steps)] =>
      if l.target = source || cases.guards.contains l.target then none
      else (g.nodes.get? node).map fun config => { node, config, guard, steps, target := l.target }
    | _ => none

/-- The split of a source, if it qualifies. -/
def branchSet? (g : Graph) (source : NodeId) : Option BranchSet := do
  let cases ← g.splits.get? source
  if cases.guards.size < 2 then none
  let branches ← cases.guards.toList.mapM fun (node, guard) => g.branch? source cases node guard
  return { source, shared := cases.shared, branches }

/-- All qualifying splits, by ascending source. -/
def branchSets (g : Graph) : List BranchSet := g.splits.keys.filterMap g.branchSet?

end Graph

namespace BranchSet

/-- The branch of a node. -/
def branch (s : BranchSet) (id : NodeId) : Except Error Branch :=
  match s.branches.find? (·.node == id) with
  | some b => .ok b
  | none => .error (.notFound (.node id))

/-- The guard of a branch with what the split does for all branches. -/
def fullGuard (s : BranchSet) (b : Branch) : Effect := s.shared.extend b.guard

/-- The chain that runs the branches one after another, each behind a step
that takes its guard. -/
def chain (s : BranchSet) (bs : List Branch) : Chain :=
  bs.flatMap fun b => Step.guard (s.fullGuard b) :: b.steps

/-- Where branches lead, each target with the guard of the first branch that
leads to it. -/
def targets (bs : List Branch) : Table NodeId Effect :=
  bs.foldl (fun t b => if t.contains b.target then t else t.insert b.target b.guard) ∅

end BranchSet

end StateGraph
