-- Snapshots: a graph laid out as plain lists, for keeping and for loading. The
-- snapshot of a graph lists everything in ascending order; a snapshot to load
-- may list it in any order, and is checked as if it were built step by step.
import StateGraph.Graph.Update

namespace StateGraph

/-! ## Records -/

structure NodeRecord where
  id : NodeId
  config : Config
  deriving DecidableEq, Inhabited

structure EdgeRecord where
  source : NodeId
  target : NodeId
  steps : Chain
  deriving DecidableEq, Inhabited

structure BranchRecord where
  target : NodeId
  effect : Effect
  deriving DecidableEq, Inhabited

structure SplitRecord where
  source : NodeId
  shared : Effect
  targets : List BranchRecord
  deriving DecidableEq, Inhabited

structure CoverRecord where
  source : NodeId
  target : NodeId
  effect : Effect
  deriving DecidableEq, Inhabited

/-- A graph laid out in lists. -/
structure Snapshot where
  next : NodeId
  nodes : List NodeRecord
  edges : List EdgeRecord := []
  splits : List SplitRecord := []
  covers : List CoverRecord := []
  deriving DecidableEq, Inhabited

/-! ## Taking a snapshot -/

def SplitRecord.ofCases (source : NodeId) (cases : Cases) : SplitRecord where
  source := source
  shared := cases.shared
  targets := cases.guards.toList.map fun (target, effect) => { target, effect }

def Graph.toSnapshot (g : Graph) : Snapshot where
  next := g.next
  nodes := g.nodes.toList.map fun (id, config) => { id, config }
  edges := g.edges.toList.map fun (l, steps) => { source := l.source, target := l.target, steps }
  splits := g.splits.toList.map fun (source, cases) => .ofCases source cases
  covers := g.covers.toList.map fun (l, effect) => { source := l.source, target := l.target, effect }

/-! ## Loading a snapshot -/

namespace Update

/-- Adds a node under the name it bears, which has to be free and below the
next name. -/
def loadNode (r : NodeRecord) : Update Unit := do
  let g ← get
  reject <|
    Graph.faultIf (r.id == 0 || g.next ≤ r.id) (.structuralConflict (.nodeOutOfRange r.id g.next))
    <|> Graph.faultIf (g.nodes.contains r.id) (.structuralConflict (.nodeTwice r.id))
  set { g with nodes := g.nodes.insert r.id r.config }

/-- Adds a split, whose targets may be targets of other splits. -/
def loadSplit (r : SplitRecord) : Update Unit := do
  let guards := Table.ofList (r.targets.map fun b => (b.target, b.effect))
  reject (Graph.faultIf (guards.size != r.targets.length) (.invalidSplit (.targetTwice r.source)))
  attachSplit r.source { shared := r.shared, guards } true

/-- Adds all records of a snapshot: nodes, edges, covers, splits. -/
def load (s : Snapshot) : Update Unit := do
  s.nodes.forM loadNode
  s.edges.forM fun r => createEdge r.source r.target r.steps
  s.covers.forM fun r => createCover r.source r.target r.effect
  s.splits.forM loadSplit

end Update

/-- The graph of a snapshot. Path conditions are loaded as they stand. -/
def Graph.ofSnapshot (s : Snapshot) : Except Error Graph :=
  if s.next = 0 ∨ maxNodeId < s.next then .error (.structuralConflict (.nextOutOfRange s.next))
  else
    match (Update.load s).run { next := s.next } with
    | .ok _ g => .ok g
    | .error e _ => .error e

end StateGraph
