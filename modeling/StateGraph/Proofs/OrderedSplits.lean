-- Splits in order. The turns come to an end by themselves, without more splits worked off onto a
-- node than there are. They give each source its place after all sources that branch to it, and
-- only a cycle of splits stops them from it.
import StateGraph.Proofs.SplitTurns

namespace StateGraph

open Relation (TransGen)

namespace SplitOrder

variable {splits : Table NodeId Cases} {p : Pending}

/-! ## The end of the turns -/

/-- The turns that are taken decide how they end. -/
theorem Turns.unique {r r' : Except OrderFault (List NodeId)} (h : Turns splits p r)
    (h' : Turns splits p r') : r = r' := by
  have hfree : ∀ {p : Pending} {id n}, p.isEmpty = true →
      p.toList.find? (·.2 == 0) ≠ some (id, n) := by
    intro p id n hp hfind
    rw [Table.isEmpty, List.isEmpty_iff] at hp
    simp [hp] at hfind
  induction h generalizing r' with
  | ends hp => cases h' <;> grind
  | stuck hp hfind => cases h' <;> grind
  | skip hfind hid _ ih => cases h' <;> grind
  | take hfind hid hq _ ih => cases h' <;> grind
  | overdraw hfind hid hfault => cases h' <;> grind

/-- Room for all that wait is never used up: whatever room there is, the turns are the same. -/
theorem takeTurns_eq {room room' : Nat} (h : Waiting splits p) (hroom : p.size ≤ room)
    (hroom' : p.size ≤ room') : takeTurns splits room p = takeTurns splits room' p :=
  (turns_takeTurns h hroom).unique (turns_takeTurns h hroom')

end SplitOrder

/-! ## What an order is -/

/-- A list of the sources of splits, each once and after all sources that branch to it. -/
structure Topological (splits : Table NodeId Cases) (order : List NodeId) : Prop where
  mem_iff : ∀ id, id ∈ order ↔ id ∈ splits
  nodup : order.Nodup
  after : ∀ before b rest, order = before ++ b :: rest → ∀ a, BranchesTo splits a b → a ∈ before

theorem BranchesTo.source {splits : Table NodeId Cases} {a b : NodeId} (h : BranchesTo splits a b) :
    a ∈ splits := by
  obtain ⟨cases, hcases, -⟩ := h
  exact Table.mem_of_get? hcases

open SplitOrder in
theorem SplitOrder.Ordered.topological {splits : Table NodeId Cases} {order : List NodeId}
    (h : Ordered splits (pending splits) order) : Topological splits order := by
  have hmem : ∀ id, id ∈ order ↔ id ∈ splits := fun id =>
    (h.mem_iff id).trans (and_iff_right_of_imp fun hid => mem_pending.mpr (Or.inl hid))
  refine ⟨hmem, h.nodup, ?_⟩
  intro before b rest horder a hab
  have hforward := h.forward
  rw [horder] at hforward
  have hb : b ∈ order := by simp [horder]
  have ha : a ∈ before ++ b :: rest := horder ▸ (hmem a).mpr hab.source
  -- after `b` stands nothing that branches to it, and `b` itself does not
  rcases List.mem_append.mp ha with ha | ha
  · exact ha
  · exfalso
    rcases List.mem_cons.mp ha with rfl | ha
    · exact h.no_loop a hb hab
    · exact (List.pairwise_cons.mp (List.pairwise_append.mp hforward).2.1).1 a ha hab

section

variable {splits : Table NodeId Cases} {order : List NodeId}

theorem Topological.idxOf_lt (h : Topological splits order) {a b : NodeId}
    (hab : BranchesTo splits a b) (hb : b ∈ order) : order.idxOf a < order.idxOf b := by
  obtain ⟨before, rest, horder⟩ := List.append_of_mem hb
  have ha : a ∈ before := h.after before b rest horder a hab
  have hnd := h.nodup
  rw [horder] at hnd ⊢
  have hb : b ∉ before := fun hb => (List.nodup_append.mp hnd).2.2 b hb b List.mem_cons_self rfl
  rw [List.idxOf_append_of_mem ha, List.idxOf_append_of_notMem hb, List.idxOf_cons_self]
  have := List.idxOf_lt_length_of_mem ha
  omega

/-- Splits that have an order have no cycle: along their branches the places only rise. -/
theorem Topological.acyclic (h : Topological splits order) : Acyclic splits := by
  have hrise : ∀ {a b}, TransGen (BranchesTo splits) a b → b ∈ order →
      order.idxOf a < order.idxOf b := by
    intro a b hab
    induction hab with
    | single hab => exact h.idxOf_lt hab
    | tail _ hbc ih =>
      intro hc
      exact (ih ((h.mem_iff _).mpr hbc.source)).trans (h.idxOf_lt hbc hc)
  intro a hcycle
  obtain ⟨b, hab, -⟩ := Relation.TransGen.head'_iff.mp hcycle
  exact Nat.lt_irrefl _ (hrise hcycle ((h.mem_iff a).mpr hab.source))

end

open SplitOrder in
/-- The turns end by themselves (`turns_splitOrder` tells them without any room), and no count of
splits onto a node is ever overdrawn. They fail exactly if some node leads back to itself
through splits, and otherwise put every source in its place. -/
theorem splitOrder_exact (splits : Table NodeId Cases) :
    (∀ room, (pending splits).size ≤ room →
      takeTurns splits room (pending splits) = splitOrder splits) ∧
    (∀ id, splitOrder splits ≠ .error (.overdrawn id)) ∧
    ((∃ fault, splitOrder splits = .error fault) ↔ ∃ a, TransGen (BranchesTo splits) a a) ∧
    ∀ order, splitOrder splits = .ok order → Topological splits order := by
  refine ⟨fun room hroom => takeTurns_eq (waiting_pending splits) hroom (Nat.le_refl _), ?_⟩
  rcases splitOrder_spec splits with ⟨order, hrun, hordered⟩ | ⟨hrun, hcyclic⟩
  · have htop := hordered.topological
    rw [hrun]
    refine ⟨by simp, ?_, ?_⟩
    · simp only [reduceCtorEq, exists_false, false_iff]
      rintro ⟨a, ha⟩
      exact htop.acyclic a ha
    · rintro order ⟨⟩
      exact htop
  · rw [hrun]
    refine ⟨by simp, ?_, by simp⟩
    unfold Acyclic at hcyclic
    push Not at hcyclic
    exact iff_of_true ⟨_, rfl⟩ hcyclic

/-- Two splits onto one node, a split without branches, and a split onto its own source. -/
example :
    let cases := fun ts : List NodeId =>
      ({ guards := .ofList (ts.map fun t => (t, Effect.top)) } : Cases)
    splitOrder (.ofList [(1, cases [4]), (4, cases [2]), (5, cases [2, 4]), (9, cases [])]) =
      .ok [1, 5, 4, 9] ∧ splitOrder (.ofList [(1, cases [4]), (4, cases [4])]) = .error .cyclic := by
  decide +kernel

end StateGraph
