-- The graph of a symbolic run: nodes that hold configurations, edges that
-- record chains of rule applications, splits that branch on cases, and covers
-- that say one node is an instance of another. Each record stands under the
-- names of its end points only, so it cannot disagree with its key.
import StateGraph.Effect
import StateGraph.Error

namespace StateGraph

/-! ## Records -/

/-- One recorded segment of a chain of rule applications. -/
structure Step where
  /-- How deep the run has come, zero before any rule. -/
  depth : UInt64 := 0
  /-- The labels of the rules applied, in their order. -/
  rules : List String := []
  /-- What the segment does to the configuration. -/
  effect : Effect := .top
  deriving DecidableEq, Inhabited

namespace Step

/-- A step that takes a branch: no rule is applied, the condition of the
branch is assumed. -/
def guard (e : Effect) : Step := { effect := e }

def isGuard (s : Step) : Bool := s.depth == 0 && s.rules.isEmpty

end Step

/-- The steps of an edge, in the order they were taken. -/
abbrev Chain := List Step

namespace Chain

def depth (c : Chain) : UInt64 := (c.getLast?.map (·.depth)).getD 0

def rules (c : Chain) : List String := c.flatMap (·.rules)

/-- The effect of the whole chain, which its last step records. -/
def effect? (c : Chain) : Option Effect := c.getLast?.map (·.effect)

end Chain

/-- The branches of a split. A run goes on in the branch whose guard holds. -/
structure Cases where
  /-- What every branch does. -/
  shared : Effect := .top
  /-- What each branch does on top, by its target. -/
  guards : Table NodeId Effect
  deriving DecidableEq, Inhabited

namespace Cases

def targets (c : Cases) : List NodeId := c.guards.keys

/-- What going to a target does: the shared effect, extended by its guard. -/
def branchEffect? (c : Cases) (target : NodeId) : Option Effect :=
  (c.guards.get? target).map c.shared.extend

end Cases

/-! ## Graphs -/

structure Graph where
  /-- The next name to give out. -/
  next : NodeId := 1
  nodes : Table NodeId Config := ∅
  edges : Table Link Chain := ∅
  splits : Table NodeId Cases := ∅
  /-- The effect that makes the target of each cover its source. -/
  covers : Table Link Effect := ∅
  deriving DecidableEq, Inhabited

namespace Graph

def empty : Graph := {}

/-- The configuration of a node, which has to be there. -/
def config (g : Graph) (id : NodeId) : Except Error Config :=
  match g.nodes.get? id with
  | some c => .ok c
  | none => .error (.notFound (.node id))

/-- A link has the end points asked for. -/
def meets (source target : Option NodeId) (l : Link) : Bool :=
  source.all (· == l.source) && target.all (· == l.target)

/-- The edges from a source, to a target, or both, in the order of their
links. -/
def edgesWhere (g : Graph) (source target : Option NodeId) : List (Link × Chain) :=
  g.edges.toList.filter fun e => meets source target e.1

/-- The covers from a source, to a target, or both, in the order of their
links. -/
def coversWhere (g : Graph) (source target : Option NodeId) : List (Link × Effect) :=
  g.covers.toList.filter fun e => meets source target e.1

/-- The splits of a source, onto a target, or both, in the order of their
sources. -/
def splitsWhere (g : Graph) (source target : Option NodeId) : List (NodeId × Cases) :=
  g.splits.toList.filter fun e => source.all (· == e.1) && target.all (e.2.guards.contains ·)

/-- The sources of all splits onto a target, ascending. -/
def splitSourcesOf (g : Graph) (target : NodeId) : List NodeId :=
  (g.splitsWhere none (some target)).map (·.1)

end Graph

end StateGraph
