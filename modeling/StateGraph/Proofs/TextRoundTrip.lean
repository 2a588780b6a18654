-- Graphs as texts and back. What a text says can always be read from it again, and it
-- loads as the graph it was written from exactly if it is not too deep.
import StateGraph.Proofs.RecordsRead
import StateGraph.Proofs.RenderedValues
import StateGraph.Proofs.SnapshotOrder

namespace StateGraph

/-! ## Every value written is plain -/

namespace Json

theorem Plain.record {fields : List (String × Json)} (h : ∀ f ∈ fields, Plain f.2) :
    Plain (.record fields) := by
  refine .object ?_ ?_ <;> rw [List.forall_mem_map]
  · exact fun f _ => ⟨f.1, rfl⟩
  · exact h

theorem Plain.list {α : Type} {write : α → Json} (h : ∀ a, Plain (write a)) (xs : List α) :
    Plain (.list write xs) :=
  .array (List.forall_mem_map.mpr fun a _ => h a)

end Json

open Json (Plain)

theorem Term.plain (t : Term) : Plain t.toJson := by
  induction t using Term.induct with
  | var name => exact .record (by simp [Plain.text])
  | token text sort => exact .record (by simp [Plain.text])
  | apply label args ih =>
    have hargs : Plain (.array (toJsonAll args)) := by
      rw [toJsonAll_eq]
      exact .array (List.forall_mem_map.mpr ih)
    exact .record (by simp [Plain.text, hargs])
  | sequence items ih =>
    have hitems : Plain (.array (toJsonAll items)) := by
      rw [toJsonAll_eq]
      exact .array (List.forall_mem_map.mpr ih)
    exact .record (by simp [Plain.text, hitems])

theorem Config.plain (c : Config) : Plain c.toJson :=
  .record (by simp [Term.plain, Plain.list])

theorem Effect.plain (e : Effect) : Plain e.toJson := by
  have hbindings : Plain (.record (e.bindings.toList.map fun b => (b.1, b.2.toJson))) :=
    .record (List.forall_mem_map.mpr fun b _ => b.2.plain)
  exact .record (by simp [hbindings, Term.plain, Plain.list])

theorem Step.plain (s : Step) : Plain s.toJson :=
  .record (by simp [Plain.nat, Plain.text, Effect.plain, Plain.list])

theorem NodeRecord.plain (r : NodeRecord) : Plain r.toJson :=
  .record (by simp [Plain.nat, Config.plain])

theorem EdgeRecord.plain (r : EdgeRecord) : Plain r.toJson :=
  .record (by simp [Plain.nat, Step.plain, Plain.list])

theorem BranchRecord.plain (r : BranchRecord) : Plain r.toJson :=
  .record (by simp [Plain.nat, Effect.plain])

theorem SplitRecord.plain (r : SplitRecord) : Plain r.toJson :=
  .record (by simp [Plain.nat, Effect.plain, BranchRecord.plain, Plain.list])

theorem CoverRecord.plain (r : CoverRecord) : Plain r.toJson :=
  .record (by simp [Plain.nat, Effect.plain])

theorem Snapshot.plain (s : Snapshot) : Plain s.toJson :=
  .record (by simp [Plain.nat, NodeRecord.plain, EdgeRecord.plain, SplitRecord.plain,
    CoverRecord.plain, Plain.list])

/-! ## There and back -/

/-- A snapshot that can be loaded names nothing too large for a word. -/
theorem Snapshot.WellFormed.narrow {s : Snapshot} (h : s.WellFormed) : s.Narrow := by
  have hnext : s.next < UInt64.size := Nat.lt_of_le_of_lt h.next_range.2 (by decide)
  have hid : ∀ id ∈ s.ids, id < UInt64.size := fun id hid => (h.ids_range id hid).2.trans hnext
  exact {
    next := hnext
    nodes := fun r hr => hid r.id (List.mem_map_of_mem hr)
    edges := fun r hr => (h.edge_ends r hr).imp (hid _) (hid _)
    splits := fun r hr => (h.split_ends r hr).imp (hid _)
      fun htargets b hb => hid _ (htargets _ (List.mem_map_of_mem hb))
    covers := fun r hr => (h.cover_ends r hr).imp (hid _) (hid _) }

/-- The text of a graph says what its snapshot does, in either layout. It loads as the
same graph exactly if no more arrays and objects stand inside one another than a reader
takes; a deeper text is refused as a text. -/
theorem Reachable.ofText_toText {g : Graph} (h : Reachable g) (hnext : g.next ≤ maxNodeId)
    {l : Json.Layout} (hl : l = .compact ∨ l = .indented) :
    let j := g.toSnapshot.toJson
    Json.parse? (g.toText l) = some j ∧
      (Graph.ofText (g.toText l) = .ok g ↔ j.depth ≤ Json.maxDepth) ∧
      (Json.maxDepth < j.depth → ∃ m, Graph.ofText (g.toText l) = .error (.serialization m)) := by
  intro j
  have hblanks : l.Blanks := by
    rcases hl with rfl | rfl
    · exact Json.blanks_compact
    · exact Json.blanks_indented
  have hwell := h.sound.wellFormed hnext
  have hparse : Json.parse? (g.toText l) = some j := Json.parse?_render hblanks g.toSnapshot.plain
  have hread {s : Snapshot} : Snapshot.ofJson? Json.maxDepth j = some s ↔
      j.depth ≤ Json.maxDepth ∧ g.toSnapshot = s :=
    Snapshot.readsBack.iff hwell.narrow
  -- Too deep a value is read as no snapshot at all, so nothing is loaded.
  have hdeep (hlt : Json.maxDepth < j.depth) :
      ∃ m, Graph.ofText (g.toText l) = .error (.serialization m) := by
    have hnone : Snapshot.ofJson? Json.maxDepth j = none :=
      Option.eq_none_iff_forall_ne_some.mpr fun s hs => Nat.not_le_of_lt hlt (hread.mp hs).1
    refine ⟨"the JSON value is not a snapshot", ?_⟩
    simp only [Graph.ofText, hparse, hnone]
  refine ⟨hparse, ⟨fun hload => ?_, fun hdepth => ?_⟩, hdeep⟩
  · by_contra hno
    obtain ⟨m, hm⟩ := hdeep (Nat.lt_of_not_le hno)
    rw [hm] at hload
    cases hload
  · have hloaded := h.sound.ofSnapshot_toSnapshot hnext
    simp only [Graph.ofText, hparse, hread.mpr ⟨hdepth, rfl⟩, hloaded]

/-- A term inside that many others. -/
def Term.nested : Nat → Term
  | 0 => .var "X"
  | n + 1 => .sequence [nested n]

theorem Reachable.ofText_toText_fork :
    let g := Graph.empty.afterAll fork
    let deep := Graph.empty.afterAll [.addNode { term := .nested 64 }]
    Graph.ofText (g.toText .compact) = .ok g ∧ Graph.ofText (g.toText .indented) = .ok g ∧
      ∃ m, Graph.ofText (deep.toText .compact) = .error (.serialization m) := by
  intro g deep
  have hdeep : Reachable deep := ⟨.empty, _, .empty, rfl⟩
  exact ⟨(reachable_fork.ofText_toText (by decide +kernel) (.inl rfl)).2.1.mpr (by decide +kernel),
    (reachable_fork.ofText_toText (by decide +kernel) (.inr rfl)).2.1.mpr (by decide +kernel),
    (hdeep.ofText_toText (by decide +kernel) (.inl rfl)).2.2 (by decide +kernel)⟩

end StateGraph
