-- What a snapshot loads as does not depend on the order of its lists, and lists the
-- same records in ascending order. A sound graph is what its own snapshot loads as,
-- as long as the next name is one that a snapshot may carry.
import StateGraph.Proofs.Failures
import StateGraph.Proofs.LegalSnapshots

namespace StateGraph

open Relation (TransGen)

namespace SplitRecord

/-- The record with its branches by ascending target. -/
def sorted (r : SplitRecord) : SplitRecord :=
  { r with targets := sortedBy (·.target) r.targets }

/-- A split written out again lists its branches in ascending order. -/
theorem ofCases_cases {r : SplitRecord} (h : r.targetIds.Nodup) :
    ofCases r.source r.cases = r.sorted := by
  have htargets : r.cases.guards.toList.map (fun e => ⟨e.1, e.2⟩) = sortedBy (·.target) r.targets :=
    toList_ofList_records (fun _ => rfl) (fun _ => rfl) (fun _ => rfl) h
  exact congrArg (SplitRecord.mk r.source r.shared) htargets

end SplitRecord

namespace Snapshot

variable {s : Snapshot}

/-- The snapshot with each of its lists in ascending order. -/
def sorted (s : Snapshot) : Snapshot where
  next := s.next
  nodes := sortedBy (·.id) s.nodes
  edges := sortedBy (·.link) s.edges
  splits := sortedBy (·.source) (s.splits.map (·.sorted))
  covers := sortedBy (·.link) s.covers

/-- The graph that is loaded lists the records in ascending order. -/
theorem toSnapshot_graph (h : s.WellFormed) : s.graph.toSnapshot = s.sorted := by
  have hnodes : s.graph.nodes.toList.map (fun e => ⟨e.1, e.2⟩) = sortedBy (·.id) s.nodes :=
    toList_ofList_records (fun _ => rfl) (fun _ => rfl) (fun _ => rfl) h.ids_distinct
  have hedges : s.graph.edges.toList.map (fun e => ⟨e.1.source, e.1.target, e.2⟩) =
      sortedBy (·.link) s.edges :=
    toList_ofList_records (fun _ => rfl) (fun _ => rfl) (fun _ => rfl) h.edges_distinct
  have hcovers : s.graph.covers.toList.map (fun e => ⟨e.1.source, e.1.target, e.2⟩) =
      sortedBy (·.link) s.covers :=
    toList_ofList_records (fun _ => rfl) (fun _ => rfl) (fun _ => rfl) h.covers_distinct
  have hsplits : s.graph.splits.toList.map (fun e => SplitRecord.ofCases e.1 e.2) =
      sortedBy (·.source) (s.splits.map (·.sorted)) := by
    refine (toList_ofList_sorted (fun _ => rfl) (fun _ => rfl) h.sources_distinct).trans ?_
    exact congrArg _ (List.map_congr_left fun r hr =>
      SplitRecord.ofCases_cases (h.targets_distinct r hr))
  exact congr (congr (congr (congrArg (Snapshot.mk s.next) hnodes) hedges) hsplits) hcovers

end Snapshot

/-! ## In another order -/

/-- The same split, with its branches in another order. -/
structure SplitRecord.Reordered (r r' : SplitRecord) : Prop where
  source_eq : r'.source = r.source
  shared_eq : r'.shared = r.shared
  targets : r'.targets.Perm r.targets

theorem SplitRecord.Reordered.entry_eq {r r' : SplitRecord} (h : r.Reordered r')
    (hnd : r.targetIds.Nodup) : r'.entry = r.entry := by
  have hguards : r'.cases.guards = r.cases.guards := by
    refine Table.ofList_eq_of_perm ?_ (h.targets.map _)
    simpa [Function.comp_def, SplitRecord.targetIds] using hnd
  have hcases : r'.cases = r.cases := congrArg₂ Cases.mk h.shared_eq hguards
  exact Prod.ext h.source_eq hcases

theorem SplitRecord.Reordered.targetIds_perm {r r' : SplitRecord} (h : r.Reordered r') :
    r'.targetIds.Perm r.targetIds := h.targets.map _

namespace Snapshot

variable {s s' : Snapshot}

/-- The same records, each list in another order. -/
structure Reordered (s s' : Snapshot) : Prop where
  next_eq : s'.next = s.next
  nodes : s'.nodes.Perm s.nodes
  edges : s'.edges.Perm s.edges
  splits : ∃ rs, List.Forall₂ SplitRecord.Reordered rs s'.splits ∧ rs.Perm s.splits
  covers : s'.covers.Perm s.covers

theorem Reordered.exists_split (h : s.Reordered s') {r' : SplitRecord} (hr' : r' ∈ s'.splits) :
    ∃ r ∈ s.splits, r.Reordered r' := by
  obtain ⟨rs, hall, hperm⟩ := h.splits
  obtain ⟨i, hi, rfl⟩ := List.mem_iff_getElem.mp hr'
  have hi' : i < rs.length := hall.length_eq ▸ hi
  exact ⟨rs[i], hperm.mem_iff.mp (List.getElem_mem hi'), hall.get hi' hi⟩

/-- What the order of branches does not change is the same list of split records,
in another order. -/
theorem Reordered.map_splits (h : s.Reordered s') {α : Type} {f : SplitRecord → α}
    (hf : ∀ r ∈ s.splits, ∀ r', r.Reordered r' → f r' = f r) :
    (s'.splits.map f).Perm (s.splits.map f) := by
  obtain ⟨rs, hall, hperm⟩ := h.splits
  have heq : rs.map f = s'.splits.map f := by
    refine List.ext_getElem (by simpa using hall.length_eq) fun i hi hi' => ?_
    rw [List.length_map] at hi hi'
    rw [List.getElem_map, List.getElem_map]
    exact (hf _ (hperm.mem_iff.mp (List.getElem_mem hi)) _ (hall.get hi hi')).symm
  exact heq ▸ hperm.map f

/-- The order of the lists makes no difference to what a snapshot may hold. -/
theorem WellFormed.reordered (h : s.WellFormed) (hs : s.Reordered s') : s'.WellFormed := by
  have hids : s'.ids.Perm s.ids := hs.nodes.map _
  have hsources : (s'.splits.map (·.source)).Perm (s.splits.map (·.source)) :=
    hs.map_splits fun _ _ _ hr => hr.source_eq
  have hbranches : ∀ a b, s'.Branches a b → s.Branches a b := by
    rintro a b ⟨r', hr', hsource, hb⟩
    obtain ⟨r, hr, hrr'⟩ := hs.exists_split hr'
    exact ⟨r, hr, hrr'.source_eq ▸ hsource, hrr'.targetIds_perm.mem_iff.mp hb⟩
  refine {
    next_range := hs.next_eq ▸ h.next_range
    ids_distinct := hids.nodup_iff.mpr h.ids_distinct
    ids_range := fun id hid => hs.next_eq ▸ h.ids_range id (hids.mem_iff.mp hid)
    edge_ends := fun r hr => ?_
    edge_steps := fun r hr => h.edge_steps r (hs.edges.mem_iff.mp hr)
    edges_distinct := (hs.edges.map _).nodup_iff.mpr h.edges_distinct
    cover_ends := fun r hr => ?_
    covers_distinct := (hs.covers.map _).nodup_iff.mpr h.covers_distinct
    split_ends := fun r' hr' => ?_
    split_branches := fun r' hr' => ?_
    targets_distinct := fun r' hr' => ?_
    sources_distinct := hsources.nodup_iff.mpr h.sources_distinct
    no_edge := fun r' hr' e he => ?_
    no_cover := fun r' hr' c hc => ?_
    acyclic := fun a ha => h.acyclic a (TransGen.mono hbranches _ _ ha) }
  · exact (h.edge_ends r (hs.edges.mem_iff.mp hr)).imp hids.mem_iff.mpr hids.mem_iff.mpr
  · exact (h.cover_ends r (hs.covers.mem_iff.mp hr)).imp hids.mem_iff.mpr hids.mem_iff.mpr
  · obtain ⟨r, hr, hrr'⟩ := hs.exists_split hr'
    obtain ⟨hsource, htargets⟩ := h.split_ends r hr
    exact ⟨hids.mem_iff.mpr (hrr'.source_eq ▸ hsource),
      fun t ht => hids.mem_iff.mpr (htargets t (hrr'.targetIds_perm.mem_iff.mp ht))⟩
  · obtain ⟨r, hr, hrr'⟩ := hs.exists_split hr'
    exact fun hnil => h.split_branches r hr (hnil ▸ hrr'.targets).symm.eq_nil
  · obtain ⟨r, hr, hrr'⟩ := hs.exists_split hr'
    exact hrr'.targetIds_perm.nodup_iff.mpr (h.targets_distinct r hr)
  · obtain ⟨r, hr, hrr'⟩ := hs.exists_split hr'
    exact hrr'.source_eq ▸ h.no_edge r hr e (hs.edges.mem_iff.mp he)
  · obtain ⟨r, hr, hrr'⟩ := hs.exists_split hr'
    exact hrr'.source_eq ▸ h.no_cover r hr c (hs.covers.mem_iff.mp hc)

/-- Nor to the graph it stands for. -/
theorem WellFormed.graph_reordered (h : s.WellFormed) (hs : s.Reordered s') :
    s'.graph = s.graph := by
  have hnodes : s'.graph.nodes = s.graph.nodes := by
    refine Table.ofList_eq_of_perm ?_ (hs.nodes.map _)
    simpa [Function.comp_def, NodeRecord.entry, ids] using h.ids_distinct
  have hedges : s'.graph.edges = s.graph.edges := by
    refine Table.ofList_eq_of_perm ?_ (hs.edges.map _)
    simpa [Function.comp_def, EdgeRecord.entry] using h.edges_distinct
  have hcovers : s'.graph.covers = s.graph.covers := by
    refine Table.ofList_eq_of_perm ?_ (hs.covers.map _)
    simpa [Function.comp_def, CoverRecord.entry] using h.covers_distinct
  have hsplits : s'.graph.splits = s.graph.splits := by
    refine Table.ofList_eq_of_perm ?_ (hs.map_splits fun r hr r' hrr' => ?_)
    · simpa [Function.comp_def, SplitRecord.entry] using h.sources_distinct
    · exact hrr'.entry_eq (h.targets_distinct r hr)
  have hnext : s'.graph.next = s.graph.next := hs.next_eq
  calc s'.graph = ⟨s'.graph.next, s'.graph.nodes, s'.graph.edges, s'.graph.splits,
        s'.graph.covers⟩ := rfl
    _ = s.graph := by rw [hnext, hnodes, hedges, hsplits, hcovers]

end Snapshot

/-! ## There and back -/

namespace Graph

variable {g : Graph}

theorem mem_ids_toSnapshot {id : NodeId} : id ∈ g.toSnapshot.ids ↔ id ∈ g.nodes := by
  simp [Snapshot.ids, toSnapshot, ← Table.mem_keys, Table.keys]

theorem targetIds_ofCases (source : NodeId) (cases : Cases) :
    (SplitRecord.ofCases source cases).targetIds = cases.guards.keys := by
  simp [SplitRecord.targetIds, SplitRecord.ofCases, Table.keys, Function.comp_def]

theorem branches_toSnapshot {a b : NodeId} :
    g.toSnapshot.Branches a b ↔ BranchesTo g.splits a b := by
  constructor
  · rintro ⟨r, hr, rfl, hb⟩
    obtain ⟨cases, hcases, he⟩ := (recorded g).split r |>.mp hr
    rw [he, targetIds_ofCases] at hb
    exact ⟨cases, hcases, Table.mem_keys.mp hb⟩
  · rintro ⟨cases, hcases, hb⟩
    refine ⟨.ofCases a cases, ((recorded g).split _).mpr ⟨cases, hcases, rfl⟩, rfl, ?_⟩
    rw [targetIds_ofCases]
    exact Table.mem_keys.mpr hb

/-- A sound graph has a well-formed snapshot, unless its next name is too large. -/
theorem Sound.wellFormed (h : Sound g) (hnext : g.next ≤ maxNodeId) : g.toSnapshot.WellFormed := by
  have hr := recorded g
  have hedge : ∀ r ∈ g.toSnapshot.edges, r.link ∈ g.edges := fun r hm =>
    Table.mem_of_get? ((hr.edge r).mp hm)
  have hcover : ∀ r ∈ g.toSnapshot.covers, r.link ∈ g.covers := fun r hm =>
    Table.mem_of_get? ((hr.cover r).mp hm)
  have hsplit : ∀ r ∈ g.toSnapshot.splits, r.source ∈ g.splits := fun r hm => by
    obtain ⟨cases, hcases, -⟩ := (hr.split r).mp hm
    exact Table.mem_of_get? hcases
  refine {
    next_range := ⟨h.next_pos, hnext⟩
    ids_distinct := ?_
    ids_range := fun id hid => h.in_range id (mem_ids_toSnapshot.mp hid)
    edge_ends := fun r hm =>
      (h.edge_ends _ (hedge r hm)).imp mem_ids_toSnapshot.mpr mem_ids_toSnapshot.mpr
    edge_steps := fun r hm => h.edge_steps _ _ ((hr.edge r).mp hm)
    edges_distinct := ?_
    cover_ends := fun r hm =>
      (h.cover_ends _ (hcover r hm)).imp mem_ids_toSnapshot.mpr mem_ids_toSnapshot.mpr
    covers_distinct := ?_
    split_ends := fun r hm => ?_
    split_branches := fun r hm => ?_
    targets_distinct := fun r hm => ?_
    sources_distinct := ?_
    no_edge := fun r hm e he => h.no_edge _ (hsplit r hm) _ (hedge e he)
    no_cover := fun r hm c hc => h.no_cover _ (hsplit r hm) _ (hcover c hc)
    acyclic := fun a ha => h.acyclic a (TransGen.mono (fun _ _ => branches_toSnapshot.mp) _ _ ha) }
  · simpa [Snapshot.ids, toSnapshot, Table.keys, Function.comp_def] using g.nodes.keys_nodup
  · simpa [EdgeRecord.link, toSnapshot, Table.keys, Function.comp_def] using g.edges.keys_nodup
  · simpa [CoverRecord.link, toSnapshot, Table.keys, Function.comp_def] using g.covers.keys_nodup
  · refine ⟨mem_ids_toSnapshot.mpr (h.split_source _ (hsplit r hm)), fun t ht => ?_⟩
    exact mem_ids_toSnapshot.mpr (h.split_target _ t (branches_toSnapshot.mp ⟨r, hm, rfl, ht⟩))
  · intro hnil
    obtain ⟨t, ht⟩ := h.split_branch _ (hsplit r hm)
    obtain ⟨cases, hcases, hb⟩ := ht
    obtain ⟨cases', hcases', he⟩ := (hr.split r).mp hm
    obtain rfl : cases' = cases := Option.some.inj (hcases'.symm.trans hcases)
    have hmem : t ∈ r.targetIds := by
      rw [he, targetIds_ofCases]
      exact Table.mem_keys.mpr hb
    rw [SplitRecord.targetIds, hnil] at hmem
    cases hmem
  · obtain ⟨cases, -, he⟩ := (hr.split r).mp hm
    rw [he, targetIds_ofCases]
    exact cases.guards.keys_nodup
  · simpa [SplitRecord.ofCases, toSnapshot, Table.keys, Function.comp_def] using
      g.splits.keys_nodup

/-- The tables of a graph's own records are its tables. -/
theorem graph_toSnapshot (g : Graph) : g.toSnapshot.graph = g := by
  have hsplit : ∀ source cases, (SplitRecord.ofCases source cases).entry = (source, cases) := by
    intro source cases
    have hguards : (SplitRecord.ofCases source cases).cases.guards = cases.guards := by
      simp [SplitRecord.cases, SplitRecord.ofCases, Function.comp_def, Table.ofList_toList]
    exact congrArg (fun t => (source, Cases.mk cases.shared t)) hguards
  simp [Snapshot.graph, toSnapshot, Function.comp_def, hsplit, NodeRecord.entry, EdgeRecord.entry,
    EdgeRecord.link, CoverRecord.entry, CoverRecord.link, Table.ofList_toList]

theorem Sound.ofSnapshot_toSnapshot (h : Sound g) (hnext : g.next ≤ maxNodeId) :
    ofSnapshot g.toSnapshot = .ok g :=
  Snapshot.load_eq_ok.mpr ⟨h.wellFormed hnext, g.graph_toSnapshot.symm⟩

end Graph

namespace Snapshot

/-- Exactly the well-formed snapshots can be loaded. What is loaded lists the same
records in ascending order, and is the same for every order of the lists. A graph
that calls have led to is what its own snapshot loads as. -/
theorem loading_exact :
    (∀ s, (∃ g, Graph.ofSnapshot s = .ok g) ↔ s.WellFormed) ∧
      (∀ s g, Graph.ofSnapshot s = .ok g →
        g.toSnapshot = s.sorted ∧ ∀ s', s.Reordered s' → Graph.ofSnapshot s' = .ok g) ∧
      ∀ g, Reachable g → g.next ≤ maxNodeId → Graph.ofSnapshot g.toSnapshot = .ok g := by
  refine ⟨fun s => ?_, fun s g hload => ?_, fun g hg => hg.sound.ofSnapshot_toSnapshot⟩
  · simp only [load_eq_ok, exists_and_left, exists_eq, and_true]
  · obtain ⟨h, rfl⟩ := load_eq_ok.mp hload
    refine ⟨toSnapshot_graph h, fun s' hs => ?_⟩
    exact load_eq_ok.mpr ⟨h.reordered hs, (h.graph_reordered hs).symm⟩

/-- The same snapshot with its nodes listed from the last to the first. -/
def backwards (s : Snapshot) : Snapshot := { s with nodes := s.nodes.reverse }

theorem reordered_backwards (s : Snapshot) : s.Reordered s.backwards where
  next_eq := rfl
  nodes := s.nodes.reverse_perm
  edges := .refl _
  splits := ⟨s.splits, List.forall₂_same.mpr fun _ _ => ⟨rfl, rfl, .refl _⟩, .refl _⟩
  covers := .refl _

theorem loading_exact_fork :
    let g := Graph.empty.afterAll fork
    Graph.ofSnapshot g.toSnapshot = .ok g ∧ Graph.ofSnapshot g.toSnapshot.backwards = .ok g := by
  intro g
  have hload := loading_exact.2.2 g reachable_fork (by decide +kernel)
  exact ⟨hload, (loading_exact.2.1 _ g hload).2 _ (reordered_backwards _)⟩

end Snapshot

/-! ## Names beyond the range -/

theorem Graph.next_afterAll_addNode (g : Graph) (cs : List Config) :
    (g.afterAll (cs.map .addNode)).next = g.next + cs.length := by
  induction cs generalizing g with
  | nil => rfl
  | cons c cs ih =>
    have hcons : g.afterAll ((c :: cs).map .addNode) =
        (g.withNode c).afterAll (cs.map .addNode) := rfl
    rw [hcons, ih, List.length_cons]
    exact Nat.add_right_comm g.next 1 cs.length

/-- The snapshot of a graph can be loaded again exactly as long as its next name is
one that a snapshot may carry. From then on no later graph has a snapshot that can
be loaded, though every node listed still bears a name that was given out. -/
theorem Start.reload {start : Graph} (h : Start start) (calls : List Call) :
    let g := start.afterAll calls
    (Graph.ofSnapshot g.toSnapshot = .ok g ↔ g.next ≤ maxNodeId) ∧
      (maxNodeId < g.next → ∀ more, Graph.ofSnapshot (g.afterAll more).toSnapshot =
        .error (.structuralConflict (.nextOutOfRange (g.afterAll more).next))) ∧
      (∀ r ∈ g.toSnapshot.nodes, 1 ≤ r.id ∧ r.id < g.next) ∧
      ∀ cs : List Config, (g.afterAll (cs.map .addNode)).next = g.next + cs.length := by
  intro g
  have hsound : g.Sound := (Graph.sound_afterAll h.sound.1 calls).1
  have hfails : ∀ {g' : Graph}, maxNodeId < g'.next → Graph.ofSnapshot g'.toSnapshot =
      .error (.structuralConflict (.nextOutOfRange g'.next)) := fun hlt => if_pos (Or.inr hlt)
  refine ⟨⟨fun hload => ?_, hsound.ofSnapshot_toSnapshot⟩, fun hlt more => ?_, fun r hr => ?_,
    g.next_afterAll_addNode⟩
  · by_contra hno
    rw [hfails (Nat.lt_of_not_le hno)] at hload
    cases hload
  · exact hfails (Nat.lt_of_lt_of_le hlt (Graph.sound_afterAll hsound more).2.next_le)
  · exact hsound.in_range r.id (Graph.mem_ids_toSnapshot.mp (List.mem_map_of_mem hr))

theorem Start.reload_fork :
    Start .empty ∧ Graph.ofSnapshot (Graph.empty.afterAll fork).toSnapshot =
      .ok (Graph.empty.afterAll fork) :=
  ⟨.empty, (Start.empty.reload fork).1.mpr (by decide +kernel)⟩

/-- The graph of no records whose next name is the largest that can be loaded. -/
def Graph.atLimit : Graph := { next := maxNodeId }

theorem start_atLimit : Start .atLimit := .loaded (s := { next := maxNodeId, nodes := [] }) rfl

/-- A graph loaded with the largest next name gives out that name and then larger
ones. Its snapshot cannot be loaded from the first of them on. -/
theorem reload_out_of_range :
    Start .atLimit ∧
      let one := Graph.atLimit.afterAll [.addNode { term := .var "A" }]
      let two := one.afterAll [.addNode { term := .var "B" }]
      maxNodeId ∈ one.nodes ∧ maxNodeId + 1 ∈ two.nodes ∧
        Graph.ofSnapshot one.toSnapshot =
          .error (.structuralConflict (.nextOutOfRange (maxNodeId + 1))) ∧
        Graph.ofSnapshot two.toSnapshot =
          .error (.structuralConflict (.nextOutOfRange (maxNodeId + 2))) :=
  ⟨start_atLimit, by decide +kernel, by decide +kernel, rfl, rfl⟩

end StateGraph
