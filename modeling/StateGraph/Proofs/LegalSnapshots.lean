-- Which snapshots can be loaded. Records are checked one at a time against those
-- before them, splits by a search for a way back; all of them pass exactly if the
-- snapshot as a whole is well formed.
import StateGraph.Proofs.RecordLists

namespace StateGraph

open Relation (ReflTransGen TransGen)

/-! ## Records as entries -/

namespace NodeRecord

def entry (r : NodeRecord) : NodeId × Config := (r.id, r.config)

end NodeRecord

namespace EdgeRecord

def link (r : EdgeRecord) : Link := ⟨r.source, r.target⟩

def entry (r : EdgeRecord) : Link × Chain := (r.link, r.steps)

end EdgeRecord

namespace CoverRecord

def link (r : CoverRecord) : Link := ⟨r.source, r.target⟩

def entry (r : CoverRecord) : Link × Effect := (r.link, r.effect)

end CoverRecord

namespace SplitRecord

/-- The nodes that the record branches to, in its order. -/
def targetIds (r : SplitRecord) : List NodeId := r.targets.map (·.target)

def cases (r : SplitRecord) : Cases where
  shared := r.shared
  guards := .ofList (r.targets.map fun b => (b.target, b.effect))

def entry (r : SplitRecord) : NodeId × Cases := (r.source, r.cases)

theorem mem_guards {r : SplitRecord} {t : NodeId} : t ∈ r.cases.guards ↔ t ∈ r.targetIds := by
  simp [cases, targetIds, Table.mem_ofList]

end SplitRecord

namespace Snapshot

variable {s : Snapshot}

/-- The names of the nodes listed. -/
def ids (s : Snapshot) : List NodeId := s.nodes.map (·.id)

/-- A split is listed that branches from one node to the other. -/
def Branches (s : Snapshot) (a b : NodeId) : Prop :=
  ∃ r ∈ s.splits, r.source = a ∧ b ∈ r.targetIds

/-- What a snapshot has to be like, without regard to the order of its lists. -/
structure WellFormed (s : Snapshot) : Prop where
  next_range : 1 ≤ s.next ∧ s.next ≤ maxNodeId
  ids_distinct : s.ids.Nodup
  ids_range : ∀ id ∈ s.ids, 1 ≤ id ∧ id < s.next
  edge_ends : ∀ r ∈ s.edges, r.source ∈ s.ids ∧ r.target ∈ s.ids
  edge_steps : ∀ r ∈ s.edges, r.steps ≠ []
  edges_distinct : (s.edges.map (·.link)).Nodup
  cover_ends : ∀ r ∈ s.covers, r.source ∈ s.ids ∧ r.target ∈ s.ids
  covers_distinct : (s.covers.map (·.link)).Nodup
  split_ends : ∀ r ∈ s.splits, r.source ∈ s.ids ∧ ∀ t ∈ r.targetIds, t ∈ s.ids
  split_branches : ∀ r ∈ s.splits, r.targets ≠ []
  targets_distinct : ∀ r ∈ s.splits, r.targetIds.Nodup
  sources_distinct : (s.splits.map (·.source)).Nodup
  no_edge : ∀ r ∈ s.splits, ∀ e ∈ s.edges, e.source ≠ r.source
  no_cover : ∀ r ∈ s.splits, ∀ c ∈ s.covers, c.source ≠ r.source
  acyclic : ∀ a, ¬ TransGen s.Branches a a

/-- The tables of the records listed. -/
def graph (s : Snapshot) : Graph where
  next := s.next
  nodes := .ofList (s.nodes.map (·.entry))
  edges := .ofList (s.edges.map (·.entry))
  splits := .ofList (s.splits.map (·.entry))
  covers := .ofList (s.covers.map (·.entry))

theorem mem_nodes_graph {id : NodeId} : id ∈ s.graph.nodes ↔ id ∈ s.ids := by
  simp [graph, ids, NodeRecord.entry, Table.mem_ofList]

theorem mem_edges_graph {l : Link} : l ∈ s.graph.edges ↔ ∃ r ∈ s.edges, r.link = l := by
  simp [graph, EdgeRecord.entry, Table.mem_ofList]

theorem mem_covers_graph {l : Link} : l ∈ s.graph.covers ↔ ∃ r ∈ s.covers, r.link = l := by
  simp [graph, CoverRecord.entry, Table.mem_ofList]

end Snapshot

/-! ## One record after another -/

namespace Update

/-- The splits so far branch to nodes only, and none leads back to itself. -/
structure Branching (g : Graph) (splits : Table NodeId Cases) : Prop where
  acyclic : Acyclic splits
  target_mem : ∀ a b, BranchesTo splits a b → b ∈ g.nodes

/-- What a split record needs of the nodes, edges and covers. -/
structure SplitFits (g : Graph) (r : SplitRecord) : Prop where
  source_mem : r.source ∈ g.nodes
  targets_mem : ∀ t ∈ r.targetIds, t ∈ g.nodes
  branches : r.targets ≠ []
  distinct : r.targetIds.Nodup
  no_edge : ∀ l ∈ g.edges, l.source ≠ r.source
  no_cover : ∀ l ∈ g.covers, l.source ≠ r.source

variable {g : Graph}

/-- The fault of a node record. -/
def nodeFault (g : Graph) (r : NodeRecord) : Option Error :=
  Graph.faultIf (r.id == 0 || g.next ≤ r.id) (.structuralConflict (.nodeOutOfRange r.id g.next))
  <|> Graph.faultIf (g.nodes.contains r.id) (.structuralConflict (.nodeTwice r.id))

theorem nodeFault_eq_none {r : NodeRecord} :
    nodeFault g r = none ↔ (1 ≤ r.id ∧ r.id < g.next) ∧ r.id ∉ g.nodes := by
  simp only [nodeFault, Option.orElse_eq_orElse, Option.orElse_eq_or, Option.or_eq_none_iff,
    Graph.faultIf_eq_none, Bool.or_eq_false_iff, beq_eq_false_iff_ne, decide_eq_false_iff_not,
    Table.contains_eq_false, Nat.not_le, Nat.one_le_iff_ne_zero, ne_eq]

theorem loadNode_run (r : NodeRecord) (g : Graph) :
    (loadNode r).run g = match nodeFault g r with
      | some e => .error e g
      | none => .ok () { g with nodes := g.nodes.insert r.id r.config } := by
  have hload : loadNode r = (do
      let g ← get
      reject (nodeFault g r)
      set { g with nodes := g.nodes.insert r.id r.config }) := rfl
  simp only [hload, EStateM.run_bind, EStateM.run_get, reject_run]
  cases nodeFault g r <;> rfl

theorem inserts_node (next : NodeId) :
    Inserts loadNode (fun nodes => { next := next, nodes := nodes }) NodeRecord.entry
      (fun r => 1 ≤ r.id ∧ r.id < next) fun _ => True :=
  .of_fault (fun t r => loadNode_run r { next := next, nodes := t })
    (fun t r _ => by rw [nodeFault_eq_none, and_true]; exact Iff.rfl) fun _ _ => trivial

theorem inserts_edge (g : Graph) :
    Inserts (fun r : EdgeRecord => createEdge r.source r.target r.steps)
      (fun edges => { g with edges := edges }) EdgeRecord.entry
      (fun r => r.source ∈ g.nodes ∧ r.target ∈ g.nodes ∧ r.steps ≠ [] ∧ r.source ∉ g.splits)
      fun _ => True :=
  .of_fault (fun t r => createEdge_run r.source r.target r.steps { g with edges := t })
    (fun t r _ => by rw [Graph.edgeFault_eq_none, and_true]; simp only [and_assoc]; exact Iff.rfl)
    fun _ _ => trivial

theorem inserts_cover (g : Graph) :
    Inserts (fun r : CoverRecord => createCover r.source r.target r.effect)
      (fun covers => { g with covers := covers }) CoverRecord.entry
      (fun r => r.source ∈ g.nodes ∧ r.target ∈ g.nodes ∧ r.source ∉ g.splits) fun _ => True :=
  .of_fault (fun t r => createCover_run r.source r.target r.effect { g with covers := t })
    (fun t r _ => by rw [Graph.coverFault_eq_none, and_true]; simp only [and_assoc]; exact Iff.rfl)
    fun _ _ => trivial

theorem branchesTo_insert_of {splits : Table NodeId Cases} {s a b : NodeId} {cases : Cases}
    (hs : s ∉ splits) (hab : BranchesTo splits a b) : BranchesTo (splits.insert s cases) a b := by
  refine branchesTo_insert.mpr (Or.inr ⟨?_, hab⟩)
  rintro rfl
  obtain ⟨c, hc, -⟩ := hab
  exact hs (Table.mem_of_get? hc)

theorem splitsLeadTo_branching {splits : Table NodeId Cases} (h : Branching g splits)
    {start : List NodeId} (hstart : ∀ x ∈ start, x ∈ g.nodes) {a : NodeId} :
    Graph.splitsLeadTo { g with splits := splits } start a = true ↔
      ∃ x ∈ start, ReflTransGen (BranchesTo splits) x a :=
  splitsLeadTo_iff (g := { g with splits := splits }) h.target_mem hstart

theorem mem_targets_cases {r : SplitRecord} {t : NodeId} :
    t ∈ r.cases.targets ↔ t ∈ r.targetIds :=
  Table.mem_keys.trans SplitRecord.mem_guards

/-- A split that is legal with the splits of the records before it leaves them without
a cycle. -/
theorem SplitFits.of_splittable {splits : Table NodeId Cases} (h : Branching g splits)
    {r : SplitRecord} (hdistinct : r.targetIds.Nodup)
    (hs : Graph.Splittable { g with splits := splits } r.source r.cases true) :
    SplitFits g r ∧ Branching g (splits.insert r.source r.cases) := by
  have hmem : ∀ t ∈ r.targetIds, t ∈ g.nodes := fun t ht =>
    hs.targets_mem t (SplitRecord.mem_guards.mpr ht)
  have hback : ∀ t ∈ r.cases.guards, ¬ ReflTransGen (BranchesTo splits) t r.source := by
    intro t ht hpath
    have hlead := (splitsLeadTo_branching h fun x hx => hmem x (mem_targets_cases.mp hx)).mpr
      ⟨t, Table.mem_keys.mpr ht, hpath⟩
    rw [hs.no_way_back] at hlead
    cases hlead
  refine ⟨⟨hs.source_mem, hmem, ?_, hdistinct, hs.no_edge, hs.no_cover⟩,
    acyclic_insert h.acyclic hback, ?_⟩
  · rintro hnone
    obtain ⟨t, ht⟩ := hs.branches
    have ht := SplitRecord.mem_guards.mp ht
    rw [SplitRecord.targetIds, hnone] at ht
    cases ht
  · intro a b hab
    rcases branchesTo_insert.mp hab with ⟨-, hb⟩ | ⟨-, hab⟩
    · exact hs.targets_mem b hb
    · exact h.target_mem a b hab

theorem SplitFits.splittable {splits : Table NodeId Cases} (h : Branching g splits)
    {r : SplitRecord} (hfits : SplitFits g r) (hnew : r.source ∉ splits)
    (hgood : Branching g (splits.insert r.source r.cases)) :
    Graph.Splittable { g with splits := splits } r.source r.cases true := by
  -- a way back would close a cycle through the new split
  have hcycle : ∀ t ∈ r.targetIds, ¬ ReflTransGen (BranchesTo splits) t r.source := by
    intro t ht hpath
    refine hgood.acyclic r.source (.head' (branchesTo_insert.mpr (Or.inl ⟨rfl, ?_⟩))
      (ReflTransGen.mono (fun a b hab => branchesTo_insert_of hnew hab) _ _ hpath))
    exact SplitRecord.mem_guards.mpr ht
  refine {
    source_mem := hfits.source_mem
    targets_mem := fun t ht => hfits.targets_mem t (SplitRecord.mem_guards.mp ht)
    branches := ?_
    no_split := hnew
    no_edge := hfits.no_edge
    no_cover := hfits.no_cover
    not_self := fun hself => hcycle _ (SplitRecord.mem_guards.mp hself) .refl
    free := by simp
    no_way_back := ?_ }
  · obtain ⟨b, bs, hb⟩ := List.exists_cons_of_ne_nil hfits.branches
    exact ⟨b.target, SplitRecord.mem_guards.mpr (by simp [SplitRecord.targetIds, hb])⟩
  · rw [← Bool.not_eq_true]
    intro hlead
    obtain ⟨t, ht, hpath⟩ := (splitsLeadTo_branching h fun x hx =>
      hfits.targets_mem x (mem_targets_cases.mp hx)).mp hlead
    exact hcycle t (mem_targets_cases.mp ht) hpath

/-- With the nodes, edges and covers in order, a new split is legal exactly if the
splits together with it close no cycle. -/
theorem splittable_iff {splits : Table NodeId Cases} (h : Branching g splits) {r : SplitRecord} :
    r.targetIds.Nodup ∧ Graph.Splittable { g with splits := splits } r.source r.cases true ↔
      SplitFits g r ∧ r.source ∉ splits ∧ Branching g (splits.insert r.source r.cases) := by
  constructor
  · rintro ⟨hdistinct, hs⟩
    obtain ⟨hfits, hgood⟩ := SplitFits.of_splittable h hdistinct hs
    exact ⟨hfits, hs.no_split, hgood⟩
  · rintro ⟨hfits, hnew, hgood⟩
    exact ⟨hfits.distinct, hfits.splittable h hnew hgood⟩

/-- The fault of a split record. -/
def splitRecordFault (g : Graph) (r : SplitRecord) : Option Error :=
  Graph.faultIf (r.cases.guards.size != r.targets.length) (.invalidSplit (.targetTwice r.source))
  <|> g.splitFault r.source r.cases true

theorem splitRecordFault_eq_none {r : SplitRecord} :
    splitRecordFault g r = none ↔ r.targetIds.Nodup ∧ g.Splittable r.source r.cases true := by
  have hdistinct : (r.cases.guards.size != r.targets.length) = false ↔ r.targetIds.Nodup := by
    rw [bne_eq_false_iff_eq, ← List.length_map (fun b => (b.target, b.effect))]
    refine Table.size_ofList.trans ?_
    simp [SplitRecord.targetIds, Function.comp_def]
  simp only [splitRecordFault, Option.orElse_eq_orElse, Option.orElse_eq_or, Option.or_eq_none_iff,
    Graph.faultIf_eq_none, hdistinct, Graph.splitFault_eq_none]

theorem loadSplit_run (r : SplitRecord) (g : Graph) :
    (loadSplit r).run g = match splitRecordFault g r with
      | some e => .error e g
      | none => .ok () { g with splits := g.splits.insert r.source r.cases } := by
  have hload : loadSplit r = (do
      reject (Graph.faultIf (r.cases.guards.size != r.targets.length)
        (.invalidSplit (.targetTwice r.source)))
      attachSplit r.source r.cases true) := rfl
  simp only [hload, splitRecordFault, EStateM.run_bind, reject_run]
  cases Graph.faultIf (r.cases.guards.size != r.targets.length)
    (.invalidSplit (.targetTwice r.source)) with
  | some e => rfl
  | none => exact attachSplit_run r.source r.cases true g

theorem inserts_split (g : Graph) :
    Inserts loadSplit (fun splits => { g with splits := splits }) SplitRecord.entry (SplitFits g)
      (Branching g) :=
  .of_fault (fun t r => loadSplit_run r { g with splits := t })
    (fun t r ht => by rw [splitRecordFault_eq_none, splittable_iff ht]; exact Iff.rfl)
    fun hk h => ⟨h.acyclic.mono fun a b hab => branchesTo_insert_of hk hab,
      fun a b hab => h.target_mem a b (branchesTo_insert_of hk hab)⟩

/-! ## All records

What each list leaves is what the next one is checked against. -/

theorem forM_loadNode_run {s : Snapshot} {g : Graph} :
    (s.nodes.forM loadNode).run { next := s.next } = .ok () g ↔
      ((∀ r ∈ s.nodes, 1 ≤ r.id ∧ r.id < s.next) ∧ s.ids.Nodup) ∧
        g = { next := s.next, nodes := s.graph.nodes } := by
  rw [(inserts_node s.next).forM_run (t := ∅) trivial]
  simp only [Table.not_mem_empty, not_false_eq_true, and_true, true_and, and_assoc]
  exact Iff.rfl

theorem forM_createEdge_run {s : Snapshot} {g : Graph} :
    (s.edges.forM fun r => createEdge r.source r.target r.steps).run
      { next := s.next, nodes := s.graph.nodes } = .ok () g ↔
      ((∀ r ∈ s.edges, r.source ∈ s.ids ∧ r.target ∈ s.ids ∧ r.steps ≠ []) ∧
        (s.edges.map (·.link)).Nodup) ∧
        g = { next := s.next, nodes := s.graph.nodes, edges := s.graph.edges } := by
  rw [(inserts_edge { next := s.next, nodes := s.graph.nodes }).forM_run (t := ∅) trivial]
  simp only [Table.not_mem_empty, not_false_eq_true, and_true, true_and, and_assoc,
    Snapshot.mem_nodes_graph]
  exact Iff.rfl

theorem forM_createCover_run {s : Snapshot} {g : Graph} :
    (s.covers.forM fun r => createCover r.source r.target r.effect).run
      { next := s.next, nodes := s.graph.nodes, edges := s.graph.edges } = .ok () g ↔
      ((∀ r ∈ s.covers, r.source ∈ s.ids ∧ r.target ∈ s.ids) ∧ (s.covers.map (·.link)).Nodup) ∧
        g = { s.graph with splits := ∅ } := by
  rw [(inserts_cover { next := s.next, nodes := s.graph.nodes, edges := s.graph.edges }).forM_run
    (t := ∅) trivial]
  simp only [Table.not_mem_empty, not_false_eq_true, and_true, true_and, and_assoc,
    Snapshot.mem_nodes_graph]
  exact Iff.rfl

theorem forM_loadSplit_run {s : Snapshot} {g : Graph} :
    (s.splits.forM loadSplit).run { s.graph with splits := ∅ } = .ok () g ↔
      ((∀ r ∈ s.splits, SplitFits s.graph r) ∧ (s.splits.map (·.source)).Nodup) ∧
        Branching s.graph s.graph.splits ∧ g = s.graph := by
  have hbegin : Branching s.graph ∅ := by
    refine ⟨acyclic_empty, ?_⟩
    rintro a b ⟨c, hc, -⟩
    simp at hc
  rw [(inserts_split s.graph).forM_run (t := ∅) hbegin]
  simp only [Table.not_mem_empty, not_false_eq_true, and_true, and_assoc]
  exact Iff.rfl

/-- What a snapshot that can be loaded has besides a next name in range. -/
theorem load_run {s : Snapshot} {g : Graph} :
    (load s).run { next := s.next } = .ok () g ↔
      ((∀ r ∈ s.nodes, 1 ≤ r.id ∧ r.id < s.next) ∧ s.ids.Nodup) ∧
      ((∀ r ∈ s.edges, r.source ∈ s.ids ∧ r.target ∈ s.ids ∧ r.steps ≠ []) ∧
        (s.edges.map (·.link)).Nodup) ∧
      ((∀ r ∈ s.covers, r.source ∈ s.ids ∧ r.target ∈ s.ids) ∧ (s.covers.map (·.link)).Nodup) ∧
      ((∀ r ∈ s.splits, SplitFits s.graph r) ∧ (s.splits.map (·.source)).Nodup) ∧
      Branching s.graph s.graph.splits ∧ g = s.graph := by
  have hload : load s = (s.nodes.forM loadNode >>= fun _ =>
      (s.edges.forM fun r => createEdge r.source r.target r.steps) >>= fun _ =>
      (s.covers.forM fun r => createCover r.source r.target r.effect) >>= fun _ =>
      s.splits.forM loadSplit) := rfl
  rw [hload]
  simp only [run_bind_eq_ok]
  constructor
  · rintro ⟨_, g₁, h₁, _, g₂, h₂, _, g₃, h₃, h₄⟩
    obtain ⟨hn, rfl⟩ := forM_loadNode_run.mp h₁
    obtain ⟨he, rfl⟩ := forM_createEdge_run.mp h₂
    obtain ⟨hc, rfl⟩ := forM_createCover_run.mp h₃
    obtain ⟨hs, hb, hg⟩ := forM_loadSplit_run.mp h₄
    exact ⟨hn, he, hc, hs, hb, hg⟩
  · rintro ⟨hn, he, hc, hs, hb, hg⟩
    exact ⟨(), _, forM_loadNode_run.mpr ⟨hn, rfl⟩, (), _, forM_createEdge_run.mpr ⟨he, rfl⟩,
      (), _, forM_createCover_run.mpr ⟨hc, rfl⟩, forM_loadSplit_run.mpr ⟨hs, hb, hg⟩⟩

end Update

namespace Snapshot

variable {s : Snapshot}

theorem get?_splits_graph (h : (s.splits.map (·.source)).Nodup) {a : NodeId} {c : Cases} :
    s.graph.splits.get? a = some c ↔ ∃ r ∈ s.splits, r.source = a ∧ r.cases = c := by
  have hnd : ((s.splits.map (·.entry)).map (·.1)).Nodup := by
    simpa [Function.comp_def, SplitRecord.entry] using h
  refine (Table.get?_ofList hnd).trans ?_
  simp only [List.mem_map, SplitRecord.entry, Prod.mk.injEq]

/-- The splits of the graph branch as the records say. -/
theorem branchesTo_graph (h : (s.splits.map (·.source)).Nodup) {a b : NodeId} :
    BranchesTo s.graph.splits a b ↔ s.Branches a b := by
  simp only [BranchesTo, get?_splits_graph h, Branches]
  constructor
  · rintro ⟨_, ⟨r, hr, hsource, rfl⟩, hb⟩
    exact ⟨r, hr, hsource, SplitRecord.mem_guards.mp hb⟩
  · rintro ⟨r, hr, hsource, hb⟩
    exact ⟨r.cases, ⟨r, hr, hsource, rfl⟩, SplitRecord.mem_guards.mpr hb⟩

theorem ofSnapshot_ok_iff {g : Graph} :
    Graph.ofSnapshot s = .ok g ↔ (1 ≤ s.next ∧ s.next ≤ maxNodeId) ∧
      (Update.load s).run { next := s.next } = .ok () g := by
  have hrange : (s.next = 0 ∨ maxNodeId < s.next) ↔ ¬ (1 ≤ s.next ∧ s.next ≤ maxNodeId) := by
    rw [not_and_or, Nat.not_le, Nat.not_le, Nat.lt_one_iff]
  unfold Graph.ofSnapshot
  by_cases hnext : 1 ≤ s.next ∧ s.next ≤ maxNodeId
  · rw [if_neg (hrange.not.mpr (not_not.mpr hnext))]
    simp only [hnext, true_and]
    cases (Update.load s).run { next := s.next } <;> simp
  · rw [if_pos (hrange.mpr hnext)]
    simp [hnext]

/-- A snapshot is loaded exactly if it is well formed, and gives the tables of
its records. -/
theorem load_eq_ok {g : Graph} : Graph.ofSnapshot s = .ok g ↔ s.WellFormed ∧ g = s.graph := by
  rw [ofSnapshot_ok_iff, Update.load_run]
  constructor
  · rintro ⟨hnext, ⟨hids, hidsnd⟩, ⟨hedges, hedgesnd⟩, ⟨hcovers, hcoversnd⟩, ⟨hsplits, hsplitsnd⟩,
      hbranching, rfl⟩
    refine ⟨{
      next_range := hnext
      ids_distinct := hidsnd
      ids_range := by simpa [ids] using hids
      edge_ends := fun r hr => ⟨(hedges r hr).1, (hedges r hr).2.1⟩
      edge_steps := fun r hr => (hedges r hr).2.2
      edges_distinct := hedgesnd
      cover_ends := hcovers
      covers_distinct := hcoversnd
      split_ends := fun r hr => ⟨mem_nodes_graph.mp (hsplits r hr).source_mem,
        fun t ht => mem_nodes_graph.mp ((hsplits r hr).targets_mem t ht)⟩
      split_branches := fun r hr => (hsplits r hr).branches
      targets_distinct := fun r hr => (hsplits r hr).distinct
      sources_distinct := hsplitsnd
      no_edge := fun r hr e he => (hsplits r hr).no_edge _ (mem_edges_graph.mpr ⟨e, he, rfl⟩)
      no_cover := fun r hr c hc => (hsplits r hr).no_cover _ (mem_covers_graph.mpr ⟨c, hc, rfl⟩)
      acyclic := fun a ha => hbranching.acyclic a
        (TransGen.mono (fun _ _ => (branchesTo_graph hsplitsnd).mpr) _ _ ha) }, rfl⟩
  · rintro ⟨h, rfl⟩
    have hfits : ∀ r ∈ s.splits, Update.SplitFits s.graph r := fun r hr => {
      source_mem := mem_nodes_graph.mpr (h.split_ends r hr).1
      targets_mem := fun t ht => mem_nodes_graph.mpr ((h.split_ends r hr).2 t ht)
      branches := h.split_branches r hr
      distinct := h.targets_distinct r hr
      no_edge := fun l hl => by
        obtain ⟨e, he, rfl⟩ := mem_edges_graph.mp hl
        exact h.no_edge r hr e he
      no_cover := fun l hl => by
        obtain ⟨c, hc, rfl⟩ := mem_covers_graph.mp hl
        exact h.no_cover r hr c hc }
    refine ⟨h.next_range, ⟨by simpa [ids] using h.ids_range, h.ids_distinct⟩, ⟨fun r hr => ?_,
      h.edges_distinct⟩, ⟨h.cover_ends, h.covers_distinct⟩, ⟨hfits, h.sources_distinct⟩,
      ⟨fun a ha => ?_, fun a b hab => ?_⟩, rfl⟩
    · exact ⟨(h.edge_ends r hr).1, (h.edge_ends r hr).2, h.edge_steps r hr⟩
    · exact h.acyclic a (TransGen.mono (fun _ _ => (branchesTo_graph h.sources_distinct).mp) _ _ ha)
    · obtain ⟨r, hr, rfl, hb⟩ := (branchesTo_graph h.sources_distinct).mp hab
      exact mem_nodes_graph.mpr ((h.split_ends r hr).2 b hb)

end Snapshot

end StateGraph
