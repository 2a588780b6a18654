-- Oracles: whoever knows the domain decides which configurations may share a
-- path. An oracle may give up, and it may remember what it was asked.
import StateGraph.Graph.Basic

namespace StateGraph

/-- Any one of the guards may hold: the disjunction of what each assumes. -/
def anyOf (guards : List Effect) : Effect := .assume [Term.or (guards.map Effect.constraint)]

/-- A decider with a memory of type `σ`. -/
structure Oracle (σ : Type) where
  /-- The two configurations may share a path. -/
  mergeable : Config → Config → EStateM Error σ Bool
  /-- The guard of a group of branches that leaves out others of their split,
  from the guards of its members. -/
  mergeGuards : List Effect → EStateM Error σ Effect := fun guards => pure (anyOf guards)

namespace Oracle

/-- An oracle without a memory, so that equal questions have equal answers. -/
def ofFunctions (mergeable : Config → Config → Except Error Bool)
    (mergeGuards : List Effect → Except Error Effect) : Oracle Unit where
  mergeable a b := liftExcept (mergeable a b)
  mergeGuards guards := liftExcept (mergeGuards guards)
where
  /-- An answer that leaves no trace. -/
  liftExcept {α : Type} : Except Error α → EStateM Error Unit α
    | .ok a => pure a
    | .error e => throw e

/-- The oracle of a relation that always decides. -/
def ofRelation (related : Config → Config → Bool) : Oracle Unit :=
  ofFunctions (fun a b => .ok (related a b)) fun guards => .ok (anyOf guards)

def always : Oracle Unit := ofRelation fun _ _ => true

def never : Oracle Unit := ofRelation fun _ _ => false

def sameTerm : Oracle Unit := ofRelation fun a b => a.term == b.term

end Oracle

end StateGraph
