-- What a snapshot loads as is sound: each record passes the checks of the change
-- that adds it.
import StateGraph.Snapshot.Decode
import StateGraph.Proofs.Runs

namespace StateGraph

open StateGraph.Graph (Sound)

namespace Update

/-- A change that gives out no name and keeps a graph sound if it succeeds. -/
def Loads (x : Update Unit) : Prop :=
  ∀ g g', Sound g → x.run g = .ok () g' → Sound g' ∧ g'.next = g.next

theorem Loads.bind {x : Update Unit} {f : Unit → Update Unit} (hx : Loads x)
    (hf : Loads (f ())) : Loads (x >>= f) := by
  intro g g' h hrun
  rw [EStateM.run_bind] at hrun
  cases hfirst : x.run g with
  | error e g₁ =>
    rw [hfirst] at hrun
    cases hrun
  | ok u g₁ =>
    rw [hfirst] at hrun
    obtain ⟨hsound, hnext⟩ := hx g g₁ h hfirst
    obtain ⟨hsound', hnext'⟩ := hf g₁ g' hsound hrun
    exact ⟨hsound', hnext'.trans hnext⟩

theorem Loads.forM {β : Type} {f : β → Update Unit} (hf : ∀ x, Loads (f x)) (xs : List β) :
    Loads (xs.forM f) := by
  induction xs with
  | nil =>
    intro g g' h hrun
    cases hrun
    exact ⟨h, rfl⟩
  | cons x xs ih => exact (hf x).bind ih

/-! ## Records -/

theorem loads_reject (o : Option Error) : Loads (reject o) := by
  intro g g' h hrun
  rw [reject_run] at hrun
  split at hrun
  · cases hrun
  · cases hrun
    exact ⟨h, rfl⟩

theorem loads_node (r : NodeRecord) : Loads (loadNode r) := by
  intro g g' h hrun
  simp only [loadNode, EStateM.run_bind, EStateM.run_get, reject_run] at hrun
  cases hfault : (Graph.faultIf (r.id == 0 || g.next ≤ r.id)
      (.structuralConflict (.nodeOutOfRange r.id g.next)) <|>
      Graph.faultIf (g.nodes.contains r.id) (.structuralConflict (.nodeTwice r.id))) with
  | some e =>
    rw [hfault] at hrun
    cases hrun
  | none =>
    rw [hfault] at hrun
    cases hrun
    simp only [Option.orElse_eq_orElse, Option.orElse_eq_or, Option.or_eq_none_iff,
      Graph.faultIf_eq_none, Bool.or_eq_false_iff, beq_eq_false_iff_ne,
      decide_eq_false_iff_not] at hfault
    obtain ⟨⟨hpos, hlt⟩, -⟩ := hfault
    refine ⟨h.more_nodes (Nat.le_refl _) (fun id hid => Table.mem_insert.mpr (Or.inr hid)) ?_, rfl⟩
    intro id hid
    rcases Table.mem_insert.mp hid with rfl | hid
    · exact ⟨Nat.pos_of_ne_zero hpos, Nat.lt_of_not_le hlt⟩
    · exact h.in_range id hid

theorem loads_edge (r : EdgeRecord) : Loads (createEdge r.source r.target r.steps) := by
  intro g g' h hrun
  rw [createEdge_run] at hrun
  split at hrun
  · cases hrun
  · cases hrun
    exact ⟨h.insert_edge ‹_›, rfl⟩

theorem loads_cover (r : CoverRecord) : Loads (createCover r.source r.target r.effect) := by
  intro g g' h hrun
  rw [createCover_run] at hrun
  split at hrun
  · cases hrun
  · cases hrun
    exact ⟨h.insert_cover ‹_›, rfl⟩

theorem loads_split (r : SplitRecord) : Loads (loadSplit r) := by
  refine (loads_reject _).bind ?_
  intro g g' h hrun
  rw [attachSplit_run] at hrun
  split at hrun
  · cases hrun
  · cases hrun
    exact ⟨h.insert_split (Graph.splitFault_eq_none.mp ‹_›), rfl⟩

theorem loads_snapshot (s : Snapshot) : Loads (load s) := by
  have hedges : Loads (s.edges.forM fun r => createEdge r.source r.target r.steps) :=
    Loads.forM loads_edge s.edges
  have hcovers : Loads (s.covers.forM fun r => createCover r.source r.target r.effect) :=
    Loads.forM loads_cover s.covers
  exact (Loads.forM loads_node s.nodes).bind
    (hedges.bind (hcovers.bind (Loads.forM loads_split s.splits)))

end Update

namespace Graph

/-- What is loaded is sound, with a next name in range. -/
theorem sound_of_ofSnapshot {s : Snapshot} {g : Graph} (h : ofSnapshot s = .ok g) :
    Sound g ∧ g.next ≤ maxNodeId := by
  unfold ofSnapshot at h
  split at h
  · cases h
  · rename_i hnext
    rw [not_or] at hnext
    split at h
    · rename_i hrun
      cases h
      obtain ⟨hsound, hsame⟩ := Update.loads_snapshot s _ _
        (sound_empty (Nat.pos_of_ne_zero hnext.1)) hrun
      exact ⟨hsound, hsame ▸ Nat.le_of_not_lt hnext.2⟩
    · cases h

theorem exists_snapshot_of_ofText {t : String} {g : Graph} (h : ofText t = .ok g) :
    ∃ s, ofSnapshot s = .ok g := by
  unfold ofText at h
  split at h
  · cases h
  · split at h
    · cases h
    · exact ⟨_, h⟩

end Graph

end StateGraph
