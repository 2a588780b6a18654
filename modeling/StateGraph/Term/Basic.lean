-- Terms, the payload of every state and path condition. A term is only
-- compared, searched for variables and substituted into: nothing here decides
-- what it means.
import StateGraph.Table

namespace StateGraph

/-- A symbolic term. -/
inductive Term where
  | var (name : String)
  /-- A literal of some sort, such as `5` of sort `Int`. -/
  | token (text : String) (sort : String)
  /-- A labelled symbol applied to arguments. -/
  | apply (label : String) (args : List Term)
  /-- Terms in a row, such as the steps left to run. -/
  | sequence (items : List Term)
  deriving Inhabited

/-- A formula is a term over the connectives of `StateGraph.Term.Formula`. -/
abbrev Formula := Term

namespace Term

/-- What holds of a term as soon as it holds of each of its arguments or
items holds of every term. -/
@[elab_as_elim]
theorem induct {motive : Term → Prop} (var : ∀ name, motive (.var name))
    (token : ∀ text sort, motive (.token text sort))
    (apply : ∀ label args, (∀ a ∈ args, motive a) → motive (.apply label args))
    (sequence : ∀ items, (∀ a ∈ items, motive a) → motive (.sequence items)) (t : Term) :
    motive t :=
  Term.rec (motive_2 := fun ts => ∀ a ∈ ts, motive a) var token apply sequence
    (fun _ h => nomatch h)
    (fun _ _ hhead htail _ h => (List.mem_cons.mp h).elim (fun he => he ▸ hhead) (htail _)) t

/-! ## Equality -/

mutual

def decEq : (s t : Term) → Decidable (s = t)
  | .var a, .var b => decidable_of_iff (a = b) (by simp)
  | .token a c, .token b d => decidable_of_iff (a = b ∧ c = d) (by simp)
  | .apply a as, .apply b bs =>
    have := decEqAll as bs
    decidable_of_iff (a = b ∧ as = bs) (by simp)
  | .sequence as, .sequence bs =>
    have := decEqAll as bs
    decidable_of_iff (as = bs) (by simp)
  | .var _, .token .. | .var _, .apply .. | .var _, .sequence _
  | .token .., .var _ | .token .., .apply .. | .token .., .sequence _
  | .apply .., .var _ | .apply .., .token .. | .apply .., .sequence _
  | .sequence _, .var _ | .sequence _, .token .. | .sequence _, .apply .. => .isFalse nofun

def decEqAll : (ss ts : List Term) → Decidable (ss = ts)
  | [], [] => .isTrue rfl
  | s :: ss, t :: ts =>
    have := decEq s t
    have := decEqAll ss ts
    decidable_of_iff (s = t ∧ ss = ts) (by simp)
  | [], _ :: _ | _ :: _, [] => .isFalse nofun

end

instance : DecidableEq Term := decEq

/-! ## Variables and labels -/

def label? : Term → Option String
  | .apply label _ => some label
  | _ => none

mutual

/-- The variable names in a term, from left to right, each as often as it
occurs. -/
def varNames : Term → List String
  | .var name => [name]
  | .token .. => []
  | .apply _ args => varNamesAll args
  | .sequence items => varNamesAll items

def varNamesAll : List Term → List String
  | [] => []
  | t :: ts => varNames t ++ varNamesAll ts

end

theorem varNamesAll_eq (ts : List Term) : varNamesAll ts = ts.flatMap varNames := by
  induction ts with
  | nil => rfl
  | cons t ts ih => simp [varNamesAll, ih]

/-- The names of the variables that occur in a term. -/
def freeVars (t : Term) : SortedSet String := .ofList t.varNames

theorem mem_freeVars {t : Term} {x : String} : x ∈ t.freeVars ↔ x ∈ t.varNames :=
  SortedSet.mem_ofList

/-! ## Substitution -/

/-- A map from variable names to the terms that stand for them. -/
abbrev Bindings := Table String Term

/-- The image of a variable: the term bound to it, or the variable itself. -/
def image (s : Bindings) (name : String) : Term := (s.get? name).getD (.var name)

mutual

/-- Every bound variable replaced by its term, all at once: a term put in is
not searched again. -/
def substitute (s : Bindings) : Term → Term
  | .var name => image s name
  | .token text sort => .token text sort
  | .apply label args => .apply label (substituteAll s args)
  | .sequence items => .sequence (substituteAll s items)

def substituteAll (s : Bindings) : List Term → List Term
  | [] => []
  | t :: ts => substitute s t :: substituteAll s ts

end

theorem substituteAll_eq (s : Bindings) (ts : List Term) :
    substituteAll s ts = ts.map (substitute s) := by
  induction ts with
  | nil => rfl
  | cons t ts ih => simp [substituteAll, ih]

/-- No bindings change nothing. -/
theorem substitute_empty (t : Term) : t.substitute ∅ = t := by
  induction t using induct with
  | var name => rfl
  | token text sort => rfl
  | apply label args ih => simp [substitute, substituteAll_eq, List.map_congr_left ih]
  | sequence items ih => simp [substitute, substituteAll_eq, List.map_congr_left ih]

end Term

end StateGraph
