-- Conjunctions as they are built. A conjunction among the formulas gives up its conjuncts as
-- they stand. So flat conjunctions make a flat one, however they are grouped, and one that is
-- not flat can leave `top` or another conjunction behind.
import StateGraph.Term.Formula

namespace StateGraph.Term

/-! ## Flat conjunctions -/

/-- What a flat conjunction is made of: neither `top` nor a conjunction. -/
def Conjunct (f : Formula) : Prop := f ≠ top ∧ ∀ args, f ≠ apply andLabel args

/-- A formula that is no conjunction, or a conjunction of two or more conjuncts. -/
def Flat (f : Formula) : Prop :=
  ∀ args, f = apply andLabel args → 2 ≤ args.length ∧ ∀ a ∈ args, Conjunct a

theorem top_ne_and (args : List Formula) : top ≠ apply andLabel args := by
  simp [top, topLabel, andLabel]

theorem flat_top : Flat top := fun args h => absurd h (top_ne_and args)

theorem Conjunct.flat {f : Formula} (h : Conjunct f) : Flat f := fun args hf => absurd hf (h.2 args)

/-- No formula is its own only argument. -/
theorem ne_apply_singleton (label : String) (f : Formula) : f ≠ apply label [f] := by
  intro h
  have hsize := congrArg sizeOf h
  simp at hsize
  omega

/-- A formula is a conjunction, `top`, or a conjunct. -/
theorem and_or_top_or_conjunct (f : Formula) :
    (∃ args, f = apply andLabel args) ∨ f = top ∨ Conjunct f := by
  by_cases hand : ∃ args, f = apply andLabel args
  · exact Or.inl hand
  · by_cases htop : f = top
    · exact Or.inr (Or.inl htop)
    · exact Or.inr (Or.inr ⟨htop, fun args h => hand ⟨args, h⟩⟩)

/-! ## What formulas add -/

@[simp]
theorem conjuncts_and (args : List Formula) : conjuncts (apply andLabel args) = args := by
  simp [conjuncts]

@[simp]
theorem conjuncts_top : conjuncts top = [] := rfl

theorem Conjunct.conjuncts_eq {f : Formula} (h : Conjunct f) : conjuncts f = [f] := by
  obtain ⟨htop, hand⟩ := h
  unfold conjuncts
  split
  · rename_i label args
    have hlabel : label ≠ andLabel := fun he => hand args (by rw [he])
    have hno : isTop (apply label args) = false := by simpa [isTop] using htop
    simp [hlabel, hno]
  · rfl

/-- A formula that adds itself and nothing else is a conjunct. -/
theorem conjuncts_eq_self_iff {f : Formula} : conjuncts f = [f] ↔ Conjunct f := by
  constructor
  · intro h
    rcases and_or_top_or_conjunct f with ⟨args, rfl⟩ | rfl | hf
    · rw [conjuncts_and] at h
      exact absurd (congrArg (apply andLabel) h) (ne_apply_singleton _ _)
    · simp at h
    · exact hf
  · exact Conjunct.conjuncts_eq

/-- What a flat formula adds may stand in a flat conjunction. -/
theorem Flat.conjuncts {f : Formula} (h : Flat f) : ∀ c ∈ conjuncts f, Conjunct c := by
  rcases and_or_top_or_conjunct f with ⟨args, rfl⟩ | rfl | hf
  · rw [conjuncts_and]
    exact (h args rfl).2
  · simp
  · rw [hf.conjuncts_eq]
    simpa using hf

/-! ## Formulas under a connective -/

section Join

variable {cs : List Formula}

theorem join_of_two_le (h : 2 ≤ cs.length) : join andLabel top cs = apply andLabel cs := by
  match cs, h with
  | _ :: _ :: _, _ => rfl

/-- A list of formulas is empty, holds one formula, or holds more. -/
theorem join_cases (cs : List Formula) : cs = [] ∨ (∃ c, cs = [c]) ∨ 2 ≤ cs.length := by
  match cs with
  | [] => exact Or.inl rfl
  | [c] => exact Or.inr (Or.inl ⟨c, rfl⟩)
  | _ :: _ :: _ => exact Or.inr (Or.inr (by simp))

theorem flat_join_iff :
    Flat (join andLabel top cs) ↔ (∀ c ∈ cs, Conjunct c) ∨ ∃ c, cs = [c] ∧ Flat c := by
  rcases join_cases cs with rfl | ⟨c, rfl⟩ | hlong
  · simpa [join] using flat_top
  · have hor : Conjunct c ∨ Flat c ↔ Flat c := or_iff_right_of_imp Conjunct.flat
    simp [join, hor]
  · have hone : ¬ ∃ c, cs = [c] ∧ Flat c := by
      rintro ⟨c, rfl, -⟩
      simp at hlong
    rw [join_of_two_le hlong, or_iff_left hone]
    constructor
    · exact fun h => (h cs rfl).2
    · intro h args heq
      obtain rfl : cs = args := by simpa using heq
      exact ⟨hlong, h⟩

theorem conjuncts_join_iff :
    conjuncts (join andLabel top cs) = cs ↔ ∀ c, cs = [c] → Conjunct c := by
  rcases join_cases cs with rfl | ⟨c, rfl⟩ | hlong
  · simp [join]
  · simp [join, conjuncts_eq_self_iff]
  · rw [join_of_two_le hlong, conjuncts_and]
    refine iff_of_true rfl ?_
    rintro c rfl
    simp at hlong

/-- Joining again what a joined formula adds gives that formula, unless it is a conjunction of
fewer than two. -/
theorem join_conjuncts_eq_iff {f : Formula} :
    join andLabel top (conjuncts f) = f ↔ ∀ args, f = apply andLabel args → 2 ≤ args.length := by
  rcases and_or_top_or_conjunct f with ⟨args, rfl⟩ | rfl | hf
  · rw [conjuncts_and]
    rcases join_cases args with rfl | ⟨a, rfl⟩ | hlong
    · simp [join, top_ne_and]
    · simp [join, ne_apply_singleton]
    · simp [join_of_two_le hlong, hlong]
  · simp [join, top_ne_and]
  · rw [hf.conjuncts_eq]
    simp [join, hf.2]

end Join

/-! ## Conjunctions of formulas -/

section And

variable {fs : List Formula}

theorem conjuncts_of_flat (h : ∀ f ∈ fs, Flat f) : ∀ c ∈ fs.flatMap conjuncts, Conjunct c := by
  intro c hc
  obtain ⟨f, hf, hc⟩ := List.mem_flatMap.mp hc
  exact (h f hf).conjuncts c hc

theorem and_and_eq_iff : and [and fs] = and fs ↔
    ∀ args, fs.flatMap conjuncts = [apply andLabel args] → 2 ≤ args.length := by
  have hand : and [and fs] = join andLabel top (conjuncts (and fs)) := by
    simp [Term.and]
  rw [hand, join_conjuncts_eq_iff]
  unfold Term.and
  rcases join_cases (fs.flatMap conjuncts) with h | ⟨c, h⟩ | h
  · simp [h, join, top_ne_and]
  · simp [h, join]
  · rw [join_of_two_le h]
    constructor
    · rintro - args heq
      simp [heq] at h
    · intro _ args heq
      obtain rfl : fs.flatMap conjuncts = args := by simpa using heq
      exact h

/-- A conjunction may be built of parts of it exactly if the parts add to it what their
formulas add. -/
theorem and_splice_iff :
    (∀ xs zs, and (xs ++ [and fs] ++ zs) = and (xs ++ fs ++ zs)) ↔
      conjuncts (and fs) = fs.flatMap conjuncts := by
  constructor
  · intro h
    -- between two variables and nothing both sides are conjunctions, with the parts at their end
    have hvars := h [var "", var ""] []
    have hvar : conjuncts (var "") = [var ""] := rfl
    simpa [Term.and, hvar, join] using hvars
  · intro h xs zs
    unfold Term.and at h ⊢
    simp [List.flatMap_append, h]

/-- How flat a conjunction is hangs on what its formulas add. It is flat if they add conjuncts
alone, or one flat formula. It stays as it is when it is built again unless they add just one
conjunction, of fewer than two formulas. It can stand for them in every other conjunction unless
they add just one formula that is no conjunct. Of flat formulas none of this is in the way. -/
theorem conjunctions_built (fs : List Formula) :
    (Flat (and fs) ↔ (∀ c ∈ fs.flatMap conjuncts, Conjunct c) ∨
      ∃ c, fs.flatMap conjuncts = [c] ∧ Flat c) ∧
    (and [and fs] = and fs ↔
      ∀ args, fs.flatMap conjuncts = [apply andLabel args] → 2 ≤ args.length) ∧
    ((∀ xs zs, and (xs ++ [and fs] ++ zs) = and (xs ++ fs ++ zs)) ↔
      ∀ c, fs.flatMap conjuncts = [c] → Conjunct c) ∧
    ((∀ f ∈ fs, Flat f) → Flat (and fs) ∧ and [and fs] = and fs ∧
      ∀ xs zs, and (xs ++ [and fs] ++ zs) = and (xs ++ fs ++ zs)) := by
  have hflat : Flat (and fs) ↔ (∀ c ∈ fs.flatMap conjuncts, Conjunct c) ∨
      ∃ c, fs.flatMap conjuncts = [c] ∧ Flat c := flat_join_iff
  have hsplice : (∀ xs zs, and (xs ++ [and fs] ++ zs) = and (xs ++ fs ++ zs)) ↔
      ∀ c, fs.flatMap conjuncts = [c] → Conjunct c := and_splice_iff.trans conjuncts_join_iff
  refine ⟨hflat, and_and_eq_iff, hsplice, fun h => ?_⟩
  have hconj := conjuncts_of_flat h
  have hone : ∀ c, fs.flatMap conjuncts = [c] → Conjunct c := by
    intro c hc
    apply hconj
    simp [hc]
  refine ⟨hflat.mpr (Or.inl hconj), and_and_eq_iff.mpr fun args hargs => ?_, hsplice.mpr hone⟩
  exact absurd rfl ((hone _ hargs).2 args)

theorem conjunctions_built_nested :
    let a := geInt (var "X") (int 0)
    let nested := apply andLabel [a, not a]
    (∀ f ∈ [nested, top, a], Flat f) ∧ and [nested, top, a] = apply andLabel [a, not a, a] ∧
      Flat (and [nested, top, a]) := by
  intro a nested
  have hflat : ∀ f ∈ [nested, top, a], Flat f := by
    have hconj : ∀ f ∈ [a, not a], Conjunct f := by
      simp [a, geInt, not, Conjunct, top, topLabel, andLabel, notLabel]
    have hnested : Flat nested := by
      rintro args hargs
      obtain rfl : [a, not a] = args := by simpa [nested] using hargs
      exact ⟨by simp, hconj⟩
    simpa [hnested, flat_top] using (hconj a (by simp)).flat
  exact ⟨hflat, by decide +kernel, ((conjunctions_built _).2.2.2 hflat).1⟩

/-- A conjunction that holds `top` keeps it, one that is the only one of another is taken out of
it one at a time, and `top` alone in a conjunction is dropped with it or kept, depending on how
the formulas are grouped. -/
theorem conjunctions_not_flat :
    let a := var "A"
    let alone := fun f => apply andLabel [f]
    ¬ Flat (and [apply andLabel [top, a]]) ∧
      and [and [alone (alone (alone a))]] ≠ and [alone (alone (alone a))] ∧
      and ([a] ++ [and [alone top]] ++ []) ≠ and ([a] ++ [alone top] ++ []) := by
  intro a alone
  refine ⟨fun h => ?_, by decide +kernel, by decide +kernel⟩
  have hbuilt : and [apply andLabel [top, a]] = apply andLabel [top, a] := by decide +kernel
  have htop := (h _ hbuilt).2 top (by simp)
  exact htop.1 rfl

end And

end StateGraph.Term
