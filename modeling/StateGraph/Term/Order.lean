-- The order of terms: variables, then tokens, applications and sequences.
-- Terms of one kind compare by their parts from left to right, names by
-- code points, and a list that runs out first comes first.
import StateGraph.Term.Basic

namespace StateGraph.Term

mutual

/-- Which of two terms comes first. -/
def order : Term → Term → Ordering
  | .var a, .var b => compare a b
  | .var _, _ => .lt
  | .token .., .var _ => .gt
  | .token a c, .token b d => (compare a b).then (compare c d)
  | .token .., _ => .lt
  | .apply a as, .apply b bs => (compare a b).then (orderAll as bs)
  | .apply .., .sequence _ => .lt
  | .apply .., _ => .gt
  | .sequence as, .sequence bs => orderAll as bs
  | .sequence _, _ => .gt

def orderAll : List Term → List Term → Ordering
  | [], [] => .eq
  | [], _ :: _ => .lt
  | _ :: _, [] => .gt
  | a :: as, b :: bs => (order a b).then (orderAll as bs)

end

instance : Ord Term := ⟨order⟩

instance : LE Term := leOfOrd

instance : DecidableLE Term := fun s t => inferInstanceAs (Decidable ((compare s t).isLE = true))

theorem orderAll_eq (as bs : List Term) : orderAll as bs = compare as bs := by
  induction as generalizing bs with
  | nil => cases bs <;> rfl
  | cons a as ih =>
    cases bs with
    | nil => rfl
    | cons b bs => simp only [orderAll, ih, List.compare_eq_compareLex, List.compareLex_cons_cons]; rfl

/-- Only equal terms share a place in the order. -/
theorem order_eq_iff {s t : Term} : order s t = .eq ↔ s = t := by
  have all : ∀ {as : List Term}, (∀ a ∈ as, ∀ t, order a t = .eq ↔ a = t) →
      ∀ bs, orderAll as bs = .eq ↔ as = bs := by
    intro as
    induction as with
    | nil => intro _ bs; cases bs <;> simp [orderAll]
    | cons a as ih =>
      intro h bs
      cases bs with
      | nil => simp [orderAll]
      | cons b bs =>
        simp only [orderAll, Ordering.then_eq_eq, List.cons.injEq]
        rw [h a (.head _), ih fun x hx => h x (.tail _ hx)]
  induction s using induct generalizing t with
  | var a => cases t <;> simp [order]
  | token a c => cases t <;> simp [order, Ordering.then_eq_eq]
  | apply a as ih => cases t <;> simp [order, Ordering.then_eq_eq, all fun x hx t => ih x hx]
  | sequence as ih => cases t <;> simp [order, all fun x hx t => ih x hx]

end StateGraph.Term
