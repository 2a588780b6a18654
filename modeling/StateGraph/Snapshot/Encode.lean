-- Snapshots as JSON. Every field is written, in one fixed order.
import StateGraph.Snapshot.Basic
import StateGraph.Json.Render

namespace StateGraph

mutual

/-- A term as an object that names its kind first. -/
def Term.toJson : Term → Json
  | .var name => .record [("kind", .text "variable"), ("name", .text name)]
  | .token text sort =>
    .record [("kind", .text "token"), ("token", .text text), ("sort", .text sort)]
  | .apply label args =>
    .record [("kind", .text "apply"), ("label", .text label), ("args", .array (Term.toJsonAll args))]
  | .sequence items => .record [("kind", .text "sequence"), ("items", .array (Term.toJsonAll items))]

def Term.toJsonAll : List Term → List Json
  | [] => []
  | t :: ts => t.toJson :: Term.toJsonAll ts

end

theorem Term.toJsonAll_eq (ts : List Term) : Term.toJsonAll ts = ts.map Term.toJson := by
  induction ts with
  | nil => rfl
  | cons t ts ih => simp [Term.toJsonAll, ih]

def Json.list {α : Type} (write : α → Json) (xs : List α) : Json := .array (xs.map write)

def Config.toJson (c : Config) : Json :=
  .record [("term", c.term.toJson), ("constraints", .list Term.toJson c.constraints)]

/-- An effect as a record, its bindings by ascending name. -/
def Effect.toJson (e : Effect) : Json :=
  .record [("subst", .record (e.bindings.toList.map fun (x, t) => (x, t.toJson))),
    ("constraints", .list Term.toJson e.constraints)]

def Step.toJson (s : Step) : Json :=
  .record [("depth", .nat s.depth.toNat), ("rules", .list .text s.rules),
    ("csubst", s.effect.toJson)]

def NodeRecord.toJson (r : NodeRecord) : Json :=
  .record [("id", .nat r.id), ("cterm", r.config.toJson)]

def EdgeRecord.toJson (r : EdgeRecord) : Json :=
  .record [("source", .nat r.source), ("target", .nat r.target), ("steps", .list Step.toJson r.steps)]

def BranchRecord.toJson (r : BranchRecord) : Json :=
  .record [("target", .nat r.target), ("csubst", r.effect.toJson)]

def SplitRecord.toJson (r : SplitRecord) : Json :=
  .record [("source", .nat r.source), ("csubst", r.shared.toJson),
    ("targets", .list BranchRecord.toJson r.targets)]

def CoverRecord.toJson (r : CoverRecord) : Json :=
  .record [("source", .nat r.source), ("target", .nat r.target), ("csubst", r.effect.toJson)]

def Snapshot.toJson (s : Snapshot) : Json :=
  .record [("next", .nat s.next), ("nodes", .list NodeRecord.toJson s.nodes),
    ("edges", .list EdgeRecord.toJson s.edges), ("splits", .list SplitRecord.toJson s.splits),
    ("covers", .list CoverRecord.toJson s.covers)]

/-- The snapshot of a graph as text. -/
def Graph.toText (l : Json.Layout) (g : Graph) : String := g.toSnapshot.toJson.render l

end StateGraph
