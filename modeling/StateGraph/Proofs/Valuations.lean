-- What formulas mean. A valuation says of each formula whether it holds and takes the
-- connectives for what they are; of all else it may say anything. Conjunctions and
-- disjunctions mean the same however they are flattened while they are built.
import StateGraph.Merge.Oracle
import StateGraph.Proofs.PathConditions

namespace StateGraph

/-- A truth valuation of formulas. -/
structure Valuation where
  holds : Formula → Prop
  and_iff : ∀ args, holds (.apply Term.andLabel args) ↔ ∀ f ∈ args, holds f
  or_iff : ∀ args, holds (.apply Term.orLabel args) ↔ ∃ f ∈ args, holds f
  top : holds Term.top
  bottom : ¬ holds Term.bottom

namespace Valuation

variable (v : Valuation)

/-! ## Connectives as they are built -/

theorem holds_conjuncts (f : Formula) : (∀ c ∈ f.conjuncts, v.holds c) ↔ v.holds f := by
  unfold Term.conjuncts
  split
  · rename_i label args
    split
    · rename_i hlabel
      rw [hlabel, v.and_iff]
    · split
      · rename_i htop
        have hf : Term.apply label args = Term.top := beq_iff_eq.mp htop
        rw [hf]
        simpa using v.top
      · simp
  · simp

theorem holds_disjuncts (f : Formula) : (∃ d ∈ f.disjuncts, v.holds d) ↔ v.holds f := by
  unfold Term.disjuncts
  split
  · rename_i label args
    split
    · rename_i hlabel
      rw [hlabel, v.or_iff]
    · split
      · rename_i hbottom
        have hf : Term.apply label args = Term.bottom := beq_iff_eq.mp hbottom
        rw [hf]
        simpa using v.bottom
      · simp
  · simp

theorem holds_and (fs : List Formula) : v.holds (Term.and fs) ↔ ∀ f ∈ fs, v.holds f := by
  have hjoin : ∀ gs, v.holds (Term.join Term.andLabel Term.top gs) ↔ ∀ g ∈ gs, v.holds g := by
    intro gs
    match gs with
    | [] => simpa [Term.join] using v.top
    | [g] => simp [Term.join]
    | _ :: _ :: _ => exact v.and_iff _
  simp only [Term.and, hjoin, List.forall_mem_flatMap, v.holds_conjuncts]

theorem holds_or (fs : List Formula) : v.holds (Term.or fs) ↔ ∃ f ∈ fs, v.holds f := by
  have hjoin : ∀ gs, v.holds (Term.join Term.orLabel Term.bottom gs) ↔ ∃ g ∈ gs, v.holds g := by
    intro gs
    match gs with
    | [] => simpa [Term.join] using v.bottom
    | [g] => simp [Term.join]
    | _ :: _ :: _ => exact v.or_iff _
  rw [Term.or, hjoin]
  constructor
  · rintro ⟨g, hg, hholds⟩
    obtain ⟨f, hf, hg⟩ := List.mem_flatMap.mp hg
    exact ⟨f, hf, (v.holds_disjuncts f).mp ⟨g, hg, hholds⟩⟩
  · rintro ⟨f, hf, hholds⟩
    obtain ⟨g, hg, hholds⟩ := (v.holds_disjuncts f).mpr hholds
    exact ⟨g, List.mem_flatMap.mpr ⟨f, hf, hg⟩, hholds⟩

/-! ## Path conditions and guards -/

/-- All of some formulas hold. -/
def HoldAll (fs : List Formula) : Prop := ∀ f ∈ fs, v.holds f

@[simp]
theorem holdAll_append (fs gs : List Formula) :
    v.HoldAll (fs ++ gs) ↔ v.HoldAll fs ∧ v.HoldAll gs := List.forall_mem_append

/-- What any one of some effects assumes holds if one of them can be taken. -/
theorem holdAll_anyOf (guards : List Effect) :
    v.HoldAll (anyOf guards).constraints ↔ ∃ e ∈ guards, v.HoldAll e.constraints := by
  have hone : v.HoldAll (anyOf guards).constraints ↔
      v.holds (Term.or (guards.map Effect.constraint)) := List.forall_mem_singleton
  have heach : ∀ e : Effect, v.holds e.constraint ↔ v.HoldAll e.constraints := fun e =>
    v.holds_and e.constraints
  rw [hone, v.holds_or]
  constructor
  · rintro ⟨f, hf, hholds⟩
    obtain ⟨e, he, rfl⟩ := List.mem_map.mp hf
    exact ⟨e, he, (heach e).mp hholds⟩
  · rintro ⟨e, he, hholds⟩
    exact ⟨e.constraint, List.mem_map_of_mem he, (heach e).mpr hholds⟩

/-! ## Valuations by recursion -/

mutual

/-- Whether a formula is true, where `atom` says so of all that is no connective. -/
def truth (atom : Term → Bool) : Formula → Bool
  | .apply label args =>
    if label = Term.andLabel then truthOfAll atom args
    else if label = Term.orLabel then truthOfSome atom args
    else if .apply label args = Term.top then true
    else if .apply label args = Term.bottom then false
    else atom (.apply label args)
  | .var name => atom (.var name)
  | .token text sort => atom (.token text sort)
  | .sequence items => atom (.sequence items)

def truthOfAll (atom : Term → Bool) : List Formula → Bool
  | [] => true
  | f :: fs => truth atom f && truthOfAll atom fs

def truthOfSome (atom : Term → Bool) : List Formula → Bool
  | [] => false
  | f :: fs => truth atom f || truthOfSome atom fs

end

theorem truthOfAll_eq (atom : Term → Bool) (fs : List Formula) :
    truthOfAll atom fs = true ↔ ∀ f ∈ fs, truth atom f = true := by
  induction fs with
  | nil => simp [truthOfAll]
  | cons f fs ih => simp [truthOfAll, ih]

theorem truthOfSome_eq (atom : Term → Bool) (fs : List Formula) :
    truthOfSome atom fs = true ↔ ∃ f ∈ fs, truth atom f = true := by
  induction fs with
  | nil => simp [truthOfSome]
  | cons f fs ih => simp [truthOfSome, ih]

/-- The valuation that says of everything but connectives what it is told. -/
def ofAtoms (atom : Term → Bool) : Valuation where
  holds f := truth atom f = true
  and_iff args := by
    rw [truth, if_pos rfl]
    exact truthOfAll_eq atom args
  or_iff args := by
    rw [truth, if_neg (by decide), if_pos rfl]
    exact truthOfSome_eq atom args
  top := by simp [Term.top, truth, Term.topLabel, Term.andLabel, Term.orLabel]
  bottom := by
    simp [Term.bottom, Term.top, truth, Term.bottomLabel, Term.topLabel, Term.andLabel,
      Term.orLabel]

instance (atom : Term → Bool) (f : Formula) : Decidable ((ofAtoms atom).holds f) :=
  inferInstanceAs (Decidable (truth atom f = true))

instance (atom : Term → Bool) (fs : List Formula) : Decidable ((ofAtoms atom).HoldAll fs) :=
  inferInstanceAs (Decidable (∀ f ∈ fs, (ofAtoms atom).holds f))

end Valuation

namespace Graph

variable {g g' : Graph} {v : Valuation} {id id' : NodeId}

/-- A node is there, and its path condition holds. -/
def Admits (g : Graph) (v : Valuation) (id : NodeId) : Prop :=
  ∃ fs, g.constraints? id = some fs ∧ v.HoldAll fs

theorem admits_iff {fs : List Formula} (h : g.constraints? id = some fs) :
    g.Admits v id ↔ v.HoldAll fs := by
  simp [Admits, h]

end Graph

end StateGraph
