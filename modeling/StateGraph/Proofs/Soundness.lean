-- The shape that every graph keeps. Each change of one record keeps `Sound` as
-- soon as the fault that would forbid it is absent.
import StateGraph.Proofs.Faults

namespace StateGraph

open Relation (ReflTransGen TransGen)

namespace Graph

/-- What holds of a graph between any two calls. -/
structure Sound (g : Graph) : Prop where
  next_pos : 1 ≤ g.next
  in_range : ∀ id ∈ g.nodes, 1 ≤ id ∧ id < g.next
  edge_ends : ∀ l ∈ g.edges, l.source ∈ g.nodes ∧ l.target ∈ g.nodes
  cover_ends : ∀ l ∈ g.covers, l.source ∈ g.nodes ∧ l.target ∈ g.nodes
  split_source : ∀ s ∈ g.splits, s ∈ g.nodes
  split_target : ∀ s t, BranchesTo g.splits s t → t ∈ g.nodes
  edge_steps : ∀ l steps, g.edges.get? l = some steps → steps ≠ []
  split_branch : ∀ s ∈ g.splits, ∃ t, BranchesTo g.splits s t
  no_edge : ∀ s ∈ g.splits, ∀ l ∈ g.edges, l.source ≠ s
  no_cover : ∀ s ∈ g.splits, ∀ l ∈ g.covers, l.source ≠ s
  acyclic : Acyclic g.splits

/-- No node is branched to by two splits. -/
def Unshared (g : Graph) : Prop :=
  ∀ s s' t, BranchesTo g.splits s t → BranchesTo g.splits s' t → s = s'

/-- Names go up only, and what was not a node before has a new name. -/
structure Grows (g g' : Graph) : Prop where
  next_le : g.next ≤ g'.next
  fresh : ∀ id ∈ g'.nodes, id ∈ g.nodes ∨ g.next ≤ id

theorem Grows.refl (g : Graph) : Grows g g := ⟨Nat.le_refl _, fun _ => Or.inl⟩

theorem Grows.trans {g g' g'' : Graph} (h : Grows g g') (h' : Grows g' g'') : Grows g g'' := by
  refine ⟨Nat.le_trans h.next_le h'.next_le, ?_⟩
  intro id hid
  rcases h'.fresh id hid with hid | hle
  · exact h.fresh id hid
  · exact Or.inr (Nat.le_trans h.next_le hle)

/-- No node is added. -/
theorem grows_of_subset {g g' : Graph} (hnext : g'.next = g.next)
    (hsub : ∀ id ∈ g'.nodes, id ∈ g.nodes) : Grows g g' :=
  ⟨Nat.le_of_eq hnext.symm, fun id hid => Or.inl (hsub id hid)⟩

/-- Only configurations differ. -/
structure Reconfigured (g g' : Graph) : Prop where
  next_eq : g'.next = g.next
  edges_eq : g'.edges = g.edges
  splits_eq : g'.splits = g.splits
  covers_eq : g'.covers = g.covers
  mem_iff : ∀ id, id ∈ g'.nodes ↔ id ∈ g.nodes

theorem Reconfigured.refl (g : Graph) : Reconfigured g g :=
  ⟨rfl, rfl, rfl, rfl, fun _ => Iff.rfl⟩

theorem Reconfigured.trans {g g' g'' : Graph} (h : Reconfigured g g') (h' : Reconfigured g' g'') :
    Reconfigured g g'' :=
  ⟨h'.next_eq.trans h.next_eq, h'.edges_eq.trans h.edges_eq, h'.splits_eq.trans h.splits_eq,
    h'.covers_eq.trans h.covers_eq, fun id => (h'.mem_iff id).trans (h.mem_iff id)⟩

theorem Reconfigured.symm {g g' : Graph} (h : Reconfigured g g') : Reconfigured g' g :=
  ⟨h.next_eq.symm, h.edges_eq.symm, h.splits_eq.symm, h.covers_eq.symm,
    fun id => (h.mem_iff id).symm⟩

theorem Reconfigured.grows {g g' : Graph} (h : Reconfigured g g') : Grows g g' :=
  grows_of_subset h.next_eq fun id => (h.mem_iff id).mp

variable {g : Graph}

theorem reconfigured_insert {id : NodeId} (hid : id ∈ g.nodes) (c : Config) :
    Reconfigured g { g with nodes := g.nodes.insert id c } := by
  refine ⟨rfl, rfl, rfl, rfl, fun x => ?_⟩
  rw [Table.mem_insert]
  exact ⟨fun h => h.elim (fun he => he ▸ hid) fun h => h, Or.inr⟩

theorem Sound.reconfigured {g' : Graph} (h : Sound g) (hg : Reconfigured g g') : Sound g' := by
  obtain ⟨next, nodes, edges, splits, covers⟩ := g'
  obtain ⟨rfl, rfl, rfl, rfl, hmem⟩ := hg
  have hmem : ∀ id, id ∈ nodes ↔ id ∈ g.nodes := hmem
  exact {
    next_pos := h.next_pos
    in_range := fun id hid => h.in_range id ((hmem id).mp hid)
    edge_ends := fun l hl => (h.edge_ends l hl).imp (hmem _).mpr (hmem _).mpr
    cover_ends := fun l hl => (h.cover_ends l hl).imp (hmem _).mpr (hmem _).mpr
    split_source := fun s hs => (hmem s).mpr (h.split_source s hs)
    split_target := fun s t hst => (hmem t).mpr (h.split_target s t hst)
    edge_steps := h.edge_steps
    split_branch := h.split_branch
    no_edge := h.no_edge
    no_cover := h.no_cover
    acyclic := h.acyclic }

/-! ## A node more, a node less -/

theorem sound_empty {next : NodeId} (h : 1 ≤ next) : Sound { next := next } where
  next_pos := h
  in_range := by simp
  edge_ends := by simp
  cover_ends := by simp
  split_source := by simp
  split_target := by simp [BranchesTo]
  edge_steps := by simp
  split_branch := by simp
  no_edge := by simp
  no_cover := by simp
  acyclic := acyclic_empty

/-- More nodes do not disturb what stands. -/
theorem Sound.more_nodes (h : Sound g) {next : NodeId} {nodes : Table NodeId Config}
    (hnext : g.next ≤ next) (hsub : ∀ id ∈ g.nodes, id ∈ nodes)
    (hrange : ∀ id ∈ nodes, 1 ≤ id ∧ id < next) :
    Sound { g with next := next, nodes := nodes } where
  next_pos := Nat.le_trans h.next_pos hnext
  in_range := hrange
  edge_ends := fun l hl => (h.edge_ends l hl).imp (hsub _) (hsub _)
  cover_ends := fun l hl => (h.cover_ends l hl).imp (hsub _) (hsub _)
  split_source := fun s hs => hsub s (h.split_source s hs)
  split_target := fun s t hst => hsub t (h.split_target s t hst)
  edge_steps := h.edge_steps
  split_branch := h.split_branch
  no_edge := h.no_edge
  no_cover := h.no_cover
  acyclic := h.acyclic

/-- A name that has not been given out is no node. -/
theorem Sound.not_mem_of_le (h : Sound g) {id : NodeId} (hle : g.next ≤ id) : id ∉ g.nodes :=
  fun hm => Nat.not_le.mpr (h.in_range id hm).2 hle

theorem Sound.next_not_mem (h : Sound g) : g.next ∉ g.nodes := h.not_mem_of_le (Nat.le_refl _)

/-- The graph with one more node, under a fresh name. -/
def withNode (g : Graph) (c : Config) : Graph :=
  { g with next := g.next + 1, nodes := g.nodes.insert g.next c }

theorem mem_nodes_withNode {c : Config} {id : NodeId} :
    id ∈ (g.withNode c).nodes ↔ id = g.next ∨ id ∈ g.nodes := Table.mem_insert

theorem Sound.withNode (h : Sound g) (c : Config) : Sound (g.withNode c) := by
  refine h.more_nodes (Nat.le_succ _) (fun id hid => mem_nodes_withNode.mpr (Or.inr hid)) ?_
  intro id hid
  rcases mem_nodes_withNode.mp hid with rfl | hid
  · exact ⟨h.next_pos, Nat.lt_succ_self _⟩
  · exact (h.in_range id hid).imp_right fun hlt => Nat.lt_succ_of_lt hlt

theorem grows_withNode (g : Graph) (c : Config) : Grows g (g.withNode c) := by
  refine ⟨Nat.le_succ _, ?_⟩
  intro id hid
  rcases mem_nodes_withNode.mp hid with rfl | hid
  · exact Or.inr (Nat.le_refl _)
  · exact Or.inl hid

/-- A split of another node keeps its other branches, if it has any. -/
theorem get?_splitsWithout_eq_some {id s : NodeId} {left : Cases} :
    (g.splitsWithout id).get? s = some left ↔ s ≠ id ∧ (∃ t, t ∈ left.guards) ∧
      ∃ cases, g.splits.get? s = some cases ∧
        left = { cases with guards := cases.guards.erase id } := by
  have hbranches : (!left.guards.isEmpty) = true ↔ ∃ t, t ∈ left.guards := by
    rw [Bool.not_eq_true', ← Bool.not_eq_true, Table.isEmpty_iff]
    push Not
    exact Iff.rfl
  unfold splitsWithout
  rw [Table.get?_filter, Option.filter_eq_some_iff, hbranches, Table.get?_mapValues,
    Table.get?_erase]
  by_cases hs : s = id
  · simp [hs]
  · simp only [hs, if_false, Option.map_eq_some_iff, ne_eq, not_false_eq_true, true_and]
    rw [and_comm]
    simp only [eq_comm]

theorem branchesTo_without {id a b : NodeId} :
    BranchesTo (g.splitsWithout id) a b ↔ a ≠ id ∧ b ≠ id ∧ BranchesTo g.splits a b := by
  unfold BranchesTo
  simp only [get?_splitsWithout_eq_some]
  constructor
  · rintro ⟨_, ⟨ha, -, cases, hcases, rfl⟩, hb⟩
    obtain ⟨hne, hb⟩ := Table.mem_erase.mp hb
    exact ⟨ha, hne, cases, hcases, hb⟩
  · rintro ⟨ha, hne, cases, hcases, hb⟩
    have hmem : b ∈ cases.guards.erase id := Table.mem_erase.mpr ⟨hne, hb⟩
    exact ⟨_, ⟨ha, ⟨b, hmem⟩, cases, hcases, rfl⟩, hmem⟩

/-- A split that has lost its last branch is gone. -/
theorem mem_splitsWithout {id s : NodeId} :
    s ∈ g.splitsWithout id ↔ ∃ t, BranchesTo (g.splitsWithout id) s t := by
  constructor
  · intro hs
    obtain ⟨left, hleft⟩ := Table.mem_iff.mp hs
    obtain ⟨-, ⟨t, ht⟩, -⟩ := get?_splitsWithout_eq_some.mp hleft
    exact ⟨t, left, hleft, ht⟩
  · rintro ⟨t, cases, hcases, -⟩
    exact Table.mem_of_get? hcases

/-- Links go with either of their ends. -/
theorem get?_filter_ends {ν : Type} {links : Table Link ν} {id : NodeId} {l : Link} :
    (links.filter fun l _ => l.source != id && l.target != id).get? l =
      if l.source = id ∨ l.target = id then none else links.get? l := by
  simp only [Table.get?_filter_key, Bool.and_eq_true, bne_iff_ne, ← not_or, ite_not]

theorem mem_edges_without {id : NodeId} {l : Link} :
    l ∈ (g.without id).edges ↔ l.source ≠ id ∧ l.target ≠ id ∧ l ∈ g.edges := by
  simp [without, Table.mem_iff, Table.get?_filter_key, and_assoc]

theorem mem_covers_without {id : NodeId} {l : Link} :
    l ∈ (g.without id).covers ↔ l.source ≠ id ∧ l.target ≠ id ∧ l ∈ g.covers := by
  simp [without, Table.mem_iff, Table.get?_filter_key, and_assoc]

theorem mem_nodes_without {id x : NodeId} : x ∈ (g.without id).nodes ↔ x ≠ id ∧ x ∈ g.nodes :=
  Table.mem_erase

theorem mem_splits_of_without {id s : NodeId} (hs : s ∈ (g.without id).splits) :
    s ≠ id ∧ s ∈ g.splits := by
  obtain ⟨t, ht⟩ := mem_splitsWithout.mp hs
  obtain ⟨hne, -, cases, hcases, -⟩ := branchesTo_without.mp ht
  exact ⟨hne, Table.mem_of_get? hcases⟩

/-- Whatever touches the node goes with it, so nothing is left hanging. -/
theorem Sound.without (h : Sound g) (id : NodeId) : Sound (g.without id) where
  next_pos := h.next_pos
  in_range := fun x hx => h.in_range x (mem_nodes_without.mp hx).2
  edge_ends := by
    intro l hl
    obtain ⟨hs, ht, hl⟩ := mem_edges_without.mp hl
    obtain ⟨hsn, htn⟩ := h.edge_ends l hl
    exact ⟨mem_nodes_without.mpr ⟨hs, hsn⟩, mem_nodes_without.mpr ⟨ht, htn⟩⟩
  cover_ends := by
    intro l hl
    obtain ⟨hs, ht, hl⟩ := mem_covers_without.mp hl
    obtain ⟨hsn, htn⟩ := h.cover_ends l hl
    exact ⟨mem_nodes_without.mpr ⟨hs, hsn⟩, mem_nodes_without.mpr ⟨ht, htn⟩⟩
  split_source := by
    intro s hs
    obtain ⟨hne, hs⟩ := mem_splits_of_without hs
    exact mem_nodes_without.mpr ⟨hne, h.split_source s hs⟩
  split_target := by
    intro s t hst
    obtain ⟨-, hne, hst⟩ := branchesTo_without.mp hst
    exact mem_nodes_without.mpr ⟨hne, h.split_target s t hst⟩
  edge_steps := by
    intro l steps hl
    rw [Graph.without, get?_filter_ends] at hl
    split at hl
    · simp at hl
    · exact h.edge_steps l steps hl
  split_branch := fun s hs => mem_splitsWithout.mp hs
  no_edge := fun s hs l hl =>
    h.no_edge s (mem_splits_of_without hs).2 l (mem_edges_without.mp hl).2.2
  no_cover := fun s hs l hl =>
    h.no_cover s (mem_splits_of_without hs).2 l (mem_covers_without.mp hl).2.2
  acyclic := h.acyclic.mono fun a b hab => (branchesTo_without.mp hab).2.2

theorem grows_without (g : Graph) (id : NodeId) : Grows g (g.without id) :=
  grows_of_subset rfl fun _ hx => (mem_nodes_without.mp hx).2

/-! ## A link more, a link less -/

theorem Sound.insert_edge (h : Sound g) {l : Link} {steps : Chain}
    (hfault : g.edgeFault l steps = none) :
    Sound { g with edges := g.edges.insert l steps } := by
  obtain ⟨hs, ht, hsteps, hsplit, -⟩ := edgeFault_eq_none.mp hfault
  refine { h with edge_ends := ?_, edge_steps := ?_, no_edge := ?_ }
  · intro m hm
    rcases Table.mem_insert.mp hm with rfl | hm
    · exact ⟨hs, ht⟩
    · exact h.edge_ends m hm
  · intro m rest hm
    have hm : (g.edges.insert l steps).get? m = some rest := hm
    rw [Table.get?_insert] at hm
    split at hm
    · exact Option.some.inj hm ▸ hsteps
    · exact h.edge_steps m rest hm
  · intro s hmem m hm
    rcases Table.mem_insert.mp hm with rfl | hm
    · exact fun he => hsplit (he ▸ hmem)
    · exact h.no_edge s hmem m hm

theorem Sound.erase_edge (h : Sound g) (l : Link) : Sound { g with edges := g.edges.erase l } := by
  refine { h with edge_ends := ?_, edge_steps := ?_, no_edge := ?_ }
  · exact fun m hm => h.edge_ends m (Table.mem_erase.mp hm).2
  · intro m rest hm
    have hm : (g.edges.erase l).get? m = some rest := hm
    rw [Table.get?_erase] at hm
    split at hm
    · simp at hm
    · exact h.edge_steps m rest hm
  · exact fun s hs m hm => h.no_edge s hs m (Table.mem_erase.mp hm).2

theorem Sound.insert_cover (h : Sound g) {l : Link} {e : Effect} (hfault : g.coverFault l = none) :
    Sound { g with covers := g.covers.insert l e } := by
  obtain ⟨hs, ht, hsplit, -⟩ := coverFault_eq_none.mp hfault
  refine { h with cover_ends := ?_, no_cover := ?_ }
  · intro m hm
    rcases Table.mem_insert.mp hm with rfl | hm
    · exact ⟨hs, ht⟩
    · exact h.cover_ends m hm
  · intro s hmem m hm
    rcases Table.mem_insert.mp hm with rfl | hm
    · exact fun he => hsplit (he ▸ hmem)
    · exact h.no_cover s hmem m hm

theorem Sound.erase_cover (h : Sound g) (l : Link) :
    Sound { g with covers := g.covers.erase l } := by
  refine { h with cover_ends := ?_, no_cover := ?_ }
  · exact fun m hm => h.cover_ends m (Table.mem_erase.mp hm).2
  · exact fun s hs m hm => h.no_cover s hs m (Table.mem_erase.mp hm).2

/-! ## A split more, a split less -/

/-- Among nodes that are there, the search from the targets of a split finds a way back to
its source exactly if there is one. -/
theorem Sound.splitsLeadTo_eq_false (h : Sound g) {source : NodeId} {cases : Cases}
    (htargets : ∀ t ∈ cases.guards, t ∈ g.nodes) :
    g.splitsLeadTo cases.targets source = false ↔
      ∀ t ∈ cases.guards, ¬ ReflTransGen (BranchesTo g.splits) t source := by
  have hstart : ∀ t ∈ cases.targets, t ∈ g.nodes := fun t ht => htargets t (Table.mem_keys.mp ht)
  rw [← Bool.not_eq_true, splitsLeadTo_iff h.split_target hstart]
  simp only [Cases.targets, Table.mem_keys, not_exists, not_and]

theorem Sound.no_path_back (h : Sound g) {source : NodeId} {cases : Cases} {sharing : Bool}
    (hs : g.Splittable source cases sharing) :
    ∀ t ∈ cases.guards, ¬ ReflTransGen (BranchesTo g.splits) t source :=
  (h.splitsLeadTo_eq_false hs.targets_mem).mp hs.no_way_back

theorem Sound.insert_split (h : Sound g) {source : NodeId} {cases : Cases} {sharing : Bool}
    (hs : g.Splittable source cases sharing) :
    Sound { g with splits := g.splits.insert source cases } := by
  refine { h with
    split_source := ?_, split_target := ?_, split_branch := ?_, no_edge := ?_, no_cover := ?_
    acyclic := acyclic_insert h.acyclic (h.no_path_back hs) }
  · intro s hm
    rcases Table.mem_insert.mp hm with rfl | hm
    · exact hs.source_mem
    · exact h.split_source s hm
  · intro s t hst
    rcases branchesTo_insert.mp hst with ⟨-, ht⟩ | ⟨-, hst⟩
    · exact hs.targets_mem t ht
    · exact h.split_target s t hst
  · intro s hm
    by_cases he : s = source
    · obtain ⟨t, ht⟩ := hs.branches
      exact ⟨t, branchesTo_insert.mpr (Or.inl ⟨he, ht⟩)⟩
    · obtain ⟨t, ht⟩ := h.split_branch s ((Table.mem_insert.mp hm).resolve_left he)
      exact ⟨t, branchesTo_insert.mpr (Or.inr ⟨he, ht⟩)⟩
  · intro s hm
    rcases Table.mem_insert.mp hm with rfl | hm
    · exact hs.no_edge
    · exact h.no_edge s hm
  · intro s hm
    rcases Table.mem_insert.mp hm with rfl | hm
    · exact hs.no_cover
    · exact h.no_cover s hm

theorem branchesTo_erase {source a b : NodeId} :
    BranchesTo (g.splits.erase source) a b ↔ a ≠ source ∧ BranchesTo g.splits a b := by
  unfold BranchesTo
  by_cases h : a = source <;> simp [Table.get?_erase, h]

theorem Sound.erase_split (h : Sound g) (source : NodeId) :
    Sound { g with splits := g.splits.erase source } := by
  refine { h with
    split_source := ?_, split_target := ?_, split_branch := ?_, no_edge := ?_, no_cover := ?_
    acyclic := h.acyclic.mono fun a b hab => (branchesTo_erase.mp hab).2 }
  · exact fun s hm => h.split_source s (Table.mem_erase.mp hm).2
  · exact fun s t hst => h.split_target s t (branchesTo_erase.mp hst).2
  · intro s hm
    obtain ⟨hne, hm⟩ := Table.mem_erase.mp hm
    obtain ⟨t, ht⟩ := h.split_branch s hm
    exact ⟨t, branchesTo_erase.mpr ⟨hne, ht⟩⟩
  · exact fun s hm => h.no_edge s (Table.mem_erase.mp hm).2
  · exact fun s hm => h.no_cover s (Table.mem_erase.mp hm).2

/-! ## Targets of one split -/

theorem Unshared.mono {g' : Graph} (h : Unshared g)
    (hsub : ∀ a b, BranchesTo g'.splits a b → BranchesTo g.splits a b) : Unshared g' :=
  fun s s' t hs hs' => h s s' t (hsub s t hs) (hsub s' t hs')

theorem Unshared.insert_split (h : Unshared g) {source : NodeId} {cases : Cases}
    (hs : g.Splittable source cases false) :
    Unshared { g with splits := g.splits.insert source cases } := by
  intro s s' t hst hst'
  rcases branchesTo_insert.mp hst with ⟨he, ht⟩ | ⟨-, hold⟩
  · rcases branchesTo_insert.mp hst' with ⟨he', -⟩ | ⟨-, hold'⟩
    · exact he.trans he'.symm
    · exact absurd hold' (hs.free rfl t ht s')
  · rcases branchesTo_insert.mp hst' with ⟨-, ht⟩ | ⟨-, hold'⟩
    · exact absurd hold (hs.free rfl t ht s)
    · exact h s s' t hold hold'

end Graph

end StateGraph
