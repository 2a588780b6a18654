-- One split reworked by merging, told by what stood before. The branches that its
-- paths have taken in are gone with whatever touched them. Each path ends in a
-- fresh node that splits to where its branches led.
import StateGraph.Proofs.MergedSplits

namespace StateGraph

/-- A node is one of the branches that some paths have taken in. -/
def Absorbed (paths : List MergedPath) (id : NodeId) : Prop := ∃ p ∈ paths, id ∈ p.group.members

namespace Graph

/-- The split of a set has been reworked into some paths. -/
structure Reworked (g g' : Graph) (set : BranchSet) (paths : List MergedPath) : Prop where
  sound : g.Sound
  sound' : g'.Sound
  grows : Grows g g'
  qualified : ∃ cases, Qualified g set cases
  nonempty : paths ≠ []
  members : ∀ p ∈ paths, MembersOf set p.group.members p.branches
  source : ∀ p ∈ paths, p.group.splitSource = set.source
  anchor : ∀ p ∈ paths, p.group.anchor = set.source ∨ g.next ≤ p.group.anchor
  merged_new : ∀ p ∈ paths, g.next ≤ p.group.merged
  apart : paths.Pairwise fun p q => p.group.merged < q.group.merged
  ends : ∀ p ∈ paths, p.group.anchor ∈ g'.nodes ∧ p.group.merged ∈ g'.nodes
  absorbed : ∀ id, Absorbed paths id → id ∉ g'.nodes
  node : ∀ id ∈ g.nodes, ¬ Absorbed paths id → g'.nodes.get? id = g.nodes.get? id
  node_new : ∀ id ∈ g'.nodes, id ∈ g.nodes ∨ ∃ p ∈ paths, id = p.group.anchor ∨ id = p.group.merged
  edge : ∀ l steps, g'.edges.get? l = some steps ↔
    (¬ Absorbed paths l.source ∧ ¬ Absorbed paths l.target ∧ g.edges.get? l = some steps) ∨
      ∃ p ∈ paths, l = p.link ∧ steps = set.chain p.branches
  cover : ∀ l e, g'.covers.get? l = some e ↔
    ¬ Absorbed paths l.source ∧ ¬ Absorbed paths l.target ∧ g.covers.get? l = some e
  split : ∀ id ∈ g.nodes, id ≠ set.source → ¬ Absorbed paths id →
    (∀ t, BranchesTo g.splits id t → ¬ Absorbed paths t) → g'.splits.get? id = g.splits.get? id
  branchesTo : ∀ a b, BranchesTo g'.splits a b ↔
    (¬ Absorbed paths a ∧ ¬ Absorbed paths b ∧ BranchesTo g.splits a b) ∨
      (a = set.source ∧ b ≠ set.source ∧ ∃ p ∈ paths, p.group.anchor = b) ∨
      ∃ p ∈ paths, a = p.group.merged ∧ ∃ br ∈ p.branches, br.target = b

variable {g g' : Graph} {set : BranchSet} {cases : Cases} {paths : List MergedPath}

/-! ## All branches at once

The branches go first, and the path is laid in what is left. -/

section Without

variable {ids : List NodeId}

theorem Laid.node_of_without (h : Laid (g.withoutAll ids) g' set paths)
    (hids : ∀ id, Absorbed paths id ↔ id ∈ ids) {id : NodeId} (hid : id ∈ g.nodes)
    (hno : ¬ Absorbed paths id) : g'.nodes.get? id = g.nodes.get? id := by
  rw [hids] at hno
  rw [h.node id (mem_nodes_withoutAll.mpr ⟨hno, hid⟩), get?_nodes_withoutAll, if_neg hno]

theorem Laid.edge_of_without (h : Laid (g.withoutAll ids) g' set paths)
    (hids : ∀ id, Absorbed paths id ↔ id ∈ ids) {l : Link} {steps : Chain} :
    g'.edges.get? l = some steps ↔
      (¬ Absorbed paths l.source ∧ ¬ Absorbed paths l.target ∧ g.edges.get? l = some steps) ∨
        ∃ p ∈ paths, l = p.link ∧ steps = set.chain p.branches := by
  rw [h.edge, edges_withoutAll, linksWithout_eq_some, hids, hids]

theorem Laid.cover_of_without (h : Laid (g.withoutAll ids) g' set paths)
    (hids : ∀ id, Absorbed paths id ↔ id ∈ ids) {l : Link} {e : Effect} :
    g'.covers.get? l = some e ↔
      ¬ Absorbed paths l.source ∧ ¬ Absorbed paths l.target ∧ g.covers.get? l = some e := by
  rw [h.covers_eq, covers_withoutAll, linksWithout_eq_some, hids, hids]

theorem Laid.split_of_without (h : Laid (g.withoutAll ids) g' set paths) (hg : Sound g)
    (hids : ∀ id, Absorbed paths id ↔ id ∈ ids) {id : NodeId} (hid : id ∈ g.nodes)
    (hno : ¬ Absorbed paths id) (htargets : ∀ t, BranchesTo g.splits id t → ¬ Absorbed paths t) :
    g'.splits.get? id = g.splits.get? id := by
  simp only [hids] at hno htargets
  rw [h.split id (mem_nodes_withoutAll.mpr ⟨hno, hid⟩)]
  exact get?_splits_withoutAll hg hno fun t ht hst => htargets t hst ht

theorem Laid.branchesTo_of_without (h : Laid (g.withoutAll ids) g' set paths)
    (hids : ∀ id, Absorbed paths id ↔ id ∈ ids) {a b : NodeId} :
    BranchesTo g'.splits a b ↔
      (¬ Absorbed paths a ∧ ¬ Absorbed paths b ∧ BranchesTo g.splits a b) ∨
        ∃ p ∈ paths, a = p.group.merged ∧ ∃ br ∈ p.branches, br.target = b := by
  rw [h.branchesTo, branchesTo_withoutAll, hids, hids]

end Without

/-- No member is left, nor has the path come by its name. -/
theorem gone_whole {members : List NodeId} {bs : List Branch} (h : Sound g)
    (hq : Qualified g set cases) (hbs : MembersOf set members bs)
    (hlaid : Laid (g.withoutAll members) g' set [⟨set.wholeGroup g members bs, bs⟩])
    {id : NodeId} (hid : id ∈ members) : id ∉ g'.nodes := by
  intro hin
  rcases hlaid.node_new id hin with hin | ⟨p, hp, he⟩
  · exact (mem_nodes_withoutAll.mp hin).1 hid
  · obtain rfl := List.mem_singleton.mp hp
    obtain ⟨hold, hne⟩ := hbs.mem_nodes hq h hid
    rcases he with he | he
    · exact hne he
    · have he : id = g.next := he
      exact h.next_not_mem (he ▸ hold)

theorem reworked_whole {members : List NodeId} {bs : List Branch} (h : Sound g)
    (hq : Qualified g set cases) (hbs : MembersOf set members bs)
    (hall : ∀ b ∈ set.branches, b.node ∈ members) (config : Config) :
    Reworked g ((g.withoutAll members).withPath set set.source config bs) set
      [⟨set.wholeGroup g members bs, bs⟩] := by
  have hfits := BranchSet.pathFits_whole h hq hbs hall
  have hlaid := laid_withPath (r := set.wholeGroup g members bs) (h.withoutAll members) hfits set
    config rfl (next_withoutAll g members).symm
  have hids : ∀ id, Absorbed [⟨set.wholeGroup g members bs, bs⟩] id ↔ id ∈ members := by
    simp [Absorbed, BranchSet.wholeGroup]
  refine {
    sound := h
    sound' := (h.withoutAll members).withPath hfits set config
    grows := (grows_withoutAll g members).trans hlaid.grows
    qualified := ⟨cases, hq⟩
    nonempty := by simp
    members := by simpa [BranchSet.wholeGroup] using hbs
    source := by simp [BranchSet.wholeGroup]
    anchor := by simp [BranchSet.wholeGroup]
    merged_new := by simp [BranchSet.wholeGroup]
    apart := hlaid.apart
    ends := hlaid.ends
    absorbed := fun id hid => gone_whole h hq hbs hlaid ((hids id).mp hid)
    node := fun _ hid hno => hlaid.node_of_without hids hid hno
    node_new := fun id hid => (hlaid.node_new id hid).imp_left fun hid =>
      (mem_nodes_withoutAll.mp hid).2
    edge := fun _ _ => hlaid.edge_of_without hids
    cover := fun _ _ => hlaid.cover_of_without hids
    split := fun _ hid _ hno htargets => hlaid.split_of_without h hids hid hno htargets
    branchesTo := fun a b => ?_ }
  -- the path starts at the source itself, which is no branch of its own
  have hnone : ¬ (a = set.source ∧ b ≠ set.source ∧
      ∃ p ∈ [(⟨set.wholeGroup g members bs, bs⟩ : MergedPath)], p.group.anchor = b) := by
    rintro ⟨-, hne, p, hp, rfl⟩
    obtain rfl := List.mem_singleton.mp hp
    exact hne rfl
  rw [or_iff_right hnone]
  exact hlaid.branchesTo_of_without hids

end Graph

/-! ## Some branches behind anchors

The paths are laid first, then the branches go and the split is made again. -/

namespace Regrouping

variable {g g₁ : Graph} {set : BranchSet} {cases : Cases} {paths : List MergedPath}
  {anchors : List (NodeId × Effect)}

theorem absorbed_iff {id : NodeId} : Absorbed paths id ↔ id ∈ ids paths := mem_ids.symm

theorem ends_regroup (h : Regrouping g g₁ set cases paths anchors) {p : MergedPath}
    (hp : p ∈ paths) : p.group.anchor ∈ (set.regroup g₁ (ids paths) anchors).nodes ∧
      p.group.merged ∈ (set.regroup g₁ (ids paths) anchors).nodes := by
  obtain ⟨ha, hm⟩ := h.laid.ends p hp
  exact ⟨Graph.mem_nodes_withoutAll.mpr ⟨h.anchor_not_mem_ids hp, ha⟩,
    Graph.mem_nodes_withoutAll.mpr ⟨h.merged_not_mem_ids hp, hm⟩⟩

theorem node_regroup (h : Regrouping g g₁ set cases paths anchors) {id : NodeId}
    (hid : id ∈ g.nodes) (hno : ¬ Absorbed paths id) :
    (set.regroup g₁ (ids paths) anchors).nodes.get? id = g.nodes.get? id := by
  have hget : (g₁.withoutAll (ids paths)).nodes.get? id = _ := Graph.get?_nodes_withoutAll
  rw [if_neg (absorbed_iff.not.mp hno)] at hget
  exact hget.trans (h.laid.node id hid)

theorem edge_regroup (h : Regrouping g g₁ set cases paths anchors) {l : Link} {steps : Chain} :
    (set.regroup g₁ (ids paths) anchors).edges.get? l = some steps ↔
      (¬ Absorbed paths l.source ∧ ¬ Absorbed paths l.target ∧ g.edges.get? l = some steps) ∨
        ∃ p ∈ paths, l = p.link ∧ steps = set.chain p.branches := by
  have hedges : (set.regroup g₁ (ids paths) anchors).edges = Graph.linksWithout g₁.edges (ids paths) :=
    Graph.edges_withoutAll g₁ _
  rw [hedges, Graph.linksWithout_eq_some, h.laid.edge, absorbed_iff, absorbed_iff]
  constructor
  · rintro ⟨hs, ht, hl | hl⟩
    · exact Or.inl ⟨hs, ht, hl⟩
    · exact Or.inr hl
  · rintro (⟨hs, ht, hl⟩ | ⟨p, hp, rfl, hsteps⟩)
    · exact ⟨hs, ht, Or.inl hl⟩
    · exact ⟨h.anchor_not_mem_ids hp, h.merged_not_mem_ids hp, Or.inr ⟨p, hp, rfl, hsteps⟩⟩

theorem cover_regroup (h : Regrouping g g₁ set cases paths anchors) {l : Link} {e : Effect} :
    (set.regroup g₁ (ids paths) anchors).covers.get? l = some e ↔
      ¬ Absorbed paths l.source ∧ ¬ Absorbed paths l.target ∧ g.covers.get? l = some e := by
  have hcovers : (set.regroup g₁ (ids paths) anchors).covers =
      Graph.linksWithout g₁.covers (ids paths) := Graph.covers_withoutAll g₁ _
  rw [hcovers, Graph.linksWithout_eq_some, h.laid.covers_eq, absorbed_iff, absorbed_iff]

theorem split_regroup (h : Regrouping g g₁ set cases paths anchors) {id : NodeId}
    (hid : id ∈ g.nodes) (hne : id ≠ set.source) (hno : ¬ Absorbed paths id)
    (htargets : ∀ t, BranchesTo g.splits id t → ¬ Absorbed paths t) :
    (set.regroup g₁ (ids paths) anchors).splits.get? id = g.splits.get? id := by
  simp only [absorbed_iff] at hno htargets
  have hget : (set.regroup g₁ (ids paths) anchors).splits.get? id =
      (g₁.withoutAll (ids paths)).splits.get? id :=
    (Table.get?_insert_of_ne _ hne).trans (Table.get?_erase_of_ne hne)
  have hold := h.laid.split id hid
  rw [hget, Graph.get?_splits_withoutAll h.sound' hno fun t ht hst => ?_, hold]
  obtain ⟨c, hc, htc⟩ := hst
  exact htargets t ⟨c, hold.symm.trans hc, htc⟩ ht

/-- The source branches to what is left of its branches and to the anchors. -/
theorem branchesTo_regroup_iff (h : Regrouping g g₁ set cases paths anchors) {a b : NodeId} :
    BranchesTo (set.regroup g₁ (ids paths) anchors).splits a b ↔
      (a = set.source ∧ (BranchesTo (g₁.withoutAll (ids paths)).splits set.source b ∨
        ∃ p ∈ paths, p.group.anchor = b)) ∨
      (a ≠ set.source ∧ BranchesTo (g₁.withoutAll (ids paths)).splits a b) := by
  rw [← h.mem_guards]
  refine branchesTo_insert.trans (or_congr Iff.rfl ?_)
  refine ⟨fun ⟨ha, hab⟩ => ⟨ha, (Graph.branchesTo_erase.mp hab).2⟩, fun ⟨ha, hab⟩ => ⟨ha, ?_⟩⟩
  exact Graph.branchesTo_erase.mpr ⟨ha, hab⟩

theorem branchesTo_regroup (h : Regrouping g g₁ set cases paths anchors) {a b : NodeId} :
    BranchesTo (set.regroup g₁ (ids paths) anchors).splits a b ↔
      (¬ Absorbed paths a ∧ ¬ Absorbed paths b ∧ BranchesTo g.splits a b) ∨
        (a = set.source ∧ b ≠ set.source ∧ ∃ p ∈ paths, p.group.anchor = b) ∨
        ∃ p ∈ paths, a = p.group.merged ∧ ∃ br ∈ p.branches, br.target = b := by
  have hsource : set.source ∉ ids paths := fun hid => (h.old hid).2 rfl
  rw [h.branchesTo_regroup_iff]
  simp only [Graph.branchesTo_withoutAll, h.laid.branchesTo, absorbed_iff]
  constructor
  · rintro (⟨rfl, ⟨ha, hb, hab | ⟨p, hp, hpa, hbr⟩⟩ | ⟨p, hp, rfl⟩⟩ |
      ⟨ha, ha', hb, hab | ⟨p, hp, hpa, hbr⟩⟩)
    · exact Or.inl ⟨ha, hb, hab⟩
    · exact Or.inr (Or.inr ⟨p, hp, hpa, hbr⟩)
    · refine Or.inr (Or.inl ⟨rfl, fun he => ?_, p, hp, rfl⟩)
      exact h.anchor_not_mem hp (he ▸ h.source_mem)
    · exact Or.inl ⟨ha', hb, hab⟩
    · exact Or.inr (Or.inr ⟨p, hp, hpa, hbr⟩)
  · rintro (⟨ha, hb, hab⟩ | ⟨rfl, -, hp⟩ | ⟨p, hp, rfl, br, hbr, rfl⟩)
    · by_cases he : a = set.source
      · exact Or.inl ⟨he, Or.inl ⟨hsource, hb, Or.inl (he ▸ hab)⟩⟩
      · exact Or.inr ⟨he, ha, hb, Or.inl hab⟩
    · exact Or.inl ⟨rfl, Or.inr hp⟩
    · refine Or.inr ⟨fun he => ?_, h.merged_not_mem_ids hp, h.target_not_mem_ids hp hbr,
        Or.inr ⟨p, hp, rfl, br, hbr, rfl⟩⟩
      exact h.sound.not_mem_of_le (h.laid.merged_new p hp) (he ▸ h.source_mem)

end Regrouping

namespace Graph

theorem reworked_parts {g g₁ : Graph} {set : BranchSet} {cases : Cases} {paths : List MergedPath}
    {anchors : List (NodeId × Effect)} (h : Regrouping g g₁ set cases paths anchors) :
    Reworked g (set.regroup g₁ (Regrouping.ids paths) anchors) set paths where
  sound := h.sound
  sound' := BranchSet.sound_regroup h
  grows := h.laid.grows.trans ⟨(grows_withoutAll g₁ _).next_le, (grows_withoutAll g₁ _).fresh⟩
  qualified := ⟨cases, h.qualified⟩
  nonempty := h.nonempty
  members := h.members
  source := fun p hp => (h.anchored p hp).source
  anchor := fun p hp => Or.inr (h.anchored p hp).anchor_new
  merged_new := h.laid.merged_new
  apart := h.laid.apart
  ends := fun _ hp => h.ends_regroup hp
  absorbed := fun _ hid hin => (mem_nodes_withoutAll.mp hin).1 (Regrouping.absorbed_iff.mp hid)
  node := fun _ hid hno => h.node_regroup hid hno
  node_new := fun id hid => h.laid.node_new id (mem_nodes_withoutAll.mp hid).2
  edge := fun _ _ => h.edge_regroup
  cover := fun _ _ => h.cover_regroup
  split := fun _ hid hne hno htargets => h.split_regroup hid hne hno htargets
  branchesTo := fun _ _ => h.branchesTo_regroup

end Graph

end StateGraph
