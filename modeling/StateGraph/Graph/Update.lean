-- Changes to a graph. A change looks first for the fault that forbids it and
-- only then touches the graph, so a change that is turned down leaves
-- everything as it was.
import StateGraph.Graph.Traversal

namespace StateGraph

/-- A change to a graph that may fail. A failed change says in what state it
leaves the graph. -/
abbrev Update := EStateM Error Graph

namespace Graph

/-! ## Faults

Each of these gives the first fault of a new record, in the order in which
faults are reported, or nothing if the record may be added. -/

/-- The fault of a condition that holds. -/
def faultIf (p : Bool) (e : Error) : Option Error := if p then some e else none

/-- The fault of naming a node that is not there. -/
def referenceFault (g : Graph) (context : String) (id : NodeId) : Option Error :=
  faultIf (!g.nodes.contains id) (.invalidReference context id)

def edgeFault (g : Graph) (l : Link) (steps : Chain) : Option Error :=
  g.referenceFault "create_edge" l.source
  <|> g.referenceFault "create_edge" l.target
  <|> faultIf steps.isEmpty (.invalidEdge (.noSteps l.source l.target))
  <|> faultIf (g.splits.contains l.source)
    (.structuralConflict (.edgeOutOfSplit l.source l.target))
  <|> faultIf (g.edges.contains l) (.structuralConflict (.edgeExists l.source l.target))

def coverFault (g : Graph) (l : Link) : Option Error :=
  g.referenceFault "create_cover" l.source
  <|> g.referenceFault "create_cover" l.target
  <|> faultIf (g.splits.contains l.source)
    (.structuralConflict (.coverOutOfSplit l.source l.target))
  <|> faultIf (g.covers.contains l) (.structuralConflict (.coverExists l.source l.target))

/-- The fault of a branch target that another split has already. -/
def takenFault (g : Graph) (target : NodeId) : Option Error :=
  (g.splitSourcesOf target).head?.map fun owner => .structuralConflict (.targetTaken target owner)

/-- What forbids a new split. With `sharing`, targets of other splits may be
targets of this one as well. -/
def splitFault (g : Graph) (source : NodeId) (cases : Cases) (sharing : Bool) : Option Error :=
  g.referenceFault "create_split" source
  <|> cases.targets.findSome? (g.referenceFault "create_split")
  <|> faultIf cases.guards.isEmpty (.invalidSplit (.noBranches source))
  <|> faultIf (g.splits.contains source) (.structuralConflict (.splitExists source))
  <|> faultIf (!(g.edgesWhere (some source) none).isEmpty
      || !(g.coversWhere (some source) none).isEmpty)
    (.structuralConflict (.splitBesideEdge source))
  <|> faultIf (cases.guards.contains source) (.structuralConflict (.splitOntoItself source))
  <|> (if sharing then none else cases.targets.findSome? g.takenFault)
  <|> faultIf (g.splitsLeadTo cases.targets source)
    (.structuralConflict (.splitClosesCycle source))

/-! ## Leaving a node out -/

/-- A split starts at a node or branches to it. -/
def inSomeSplit (g : Graph) (id : NodeId) : Bool :=
  g.splits.contains id || g.splits.toList.any fun e => e.2.guards.contains id

/-- The splits without a node: its own goes, it is no branch of any other, and
a split that has lost its last branch goes as well. -/
def splitsWithout (g : Graph) (id : NodeId) : Table NodeId Cases :=
  ((g.splits.erase id).mapValues fun _ c => { c with guards := c.guards.erase id }).filter
    fun _ c => !c.guards.isEmpty

/-- The graph without a node and whatever touches it. -/
def without (g : Graph) (id : NodeId) : Graph :=
  { g with
    nodes := g.nodes.erase id
    edges := g.edges.filter fun l _ => l.source != id && l.target != id
    covers := g.covers.filter fun l _ => l.source != id && l.target != id
    splits := g.splitsWithout id }

end Graph

namespace Update

/-- Fails with a fault, if there is one. -/
def reject : Option Error → Update Unit
  | some e => throw e
  | none => pure ()

/-- Carries over a result computed from the graph. -/
def ofExcept {α : Type} : Except Error α → Update α
  | .ok a => pure a
  | .error e => throw e

/-- Takes what is there, or fails because the item is missing. -/
def demand {α : Type} (item : Item) : Option α → Update α
  | some a => pure a
  | none => throw (.notFound item)

/-! ## Nodes -/

/-- Adds a node under a fresh name. -/
def addNode (c : Config) : Update NodeId :=
  modifyGet fun g => (g.next, { g with next := g.next + 1, nodes := g.nodes.insert g.next c })

/-- Puts another configuration into a node. -/
def replaceConfig (id : NodeId) (c : Config) : Update Unit := do
  let g ← get
  let _ ← demand (.node id) (g.nodes.get? id)
  set { g with nodes := g.nodes.insert id c }

/-- Takes a node out with every edge, cover and branch that touches it, and
leaves path conditions as they are. Gives its configuration, and whether some
split changed. -/
def detachNode (id : NodeId) : Update (Config × Bool) := do
  let g ← get
  let c ← demand (.node id) (g.nodes.get? id)
  set (g.without id)
  return (c, g.inSomeSplit id)

/-! ## Edges and covers -/

def createEdge (source target : NodeId) (steps : Chain) : Update Unit := do
  let g ← get
  reject (g.edgeFault ⟨source, target⟩ steps)
  set { g with edges := g.edges.insert ⟨source, target⟩ steps }

def removeEdge (source target : NodeId) : Update Chain := do
  let g ← get
  let steps ← demand (.edge source target) (g.edges.get? ⟨source, target⟩)
  set { g with edges := g.edges.erase ⟨source, target⟩ }
  return steps

def createCover (source target : NodeId) (effect : Effect) : Update Unit := do
  let g ← get
  reject (g.coverFault ⟨source, target⟩)
  set { g with covers := g.covers.insert ⟨source, target⟩ effect }

def removeCover (source target : NodeId) : Update Effect := do
  let g ← get
  let effect ← demand (.cover source target) (g.covers.get? ⟨source, target⟩)
  set { g with covers := g.covers.erase ⟨source, target⟩ }
  return effect

/-! ## Splits, with path conditions left as they are -/

def attachSplit (source : NodeId) (cases : Cases) (sharing : Bool) : Update Unit := do
  let g ← get
  reject (g.splitFault source cases sharing)
  set { g with splits := g.splits.insert source cases }

/-- Takes the split of a node out, if it has one. -/
def detachSplit (source : NodeId) : Update (Option Cases) :=
  modifyGet fun g => (g.splits.get? source, { g with splits := g.splits.erase source })

end Update

end StateGraph
