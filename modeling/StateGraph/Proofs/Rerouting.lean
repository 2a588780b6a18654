-- Walks through a reworked split. A walk that comes through a merged path has one
-- before that comes through a branch. The other way round a walk is lost only if it
-- enters a merged branch other than by its split.
import StateGraph.Proofs.Reworking
import StateGraph.Proofs.Walks

namespace StateGraph

open Relation (ReflTransGen)

namespace Graph

/-- No edge and no cover enters a branch that is merged. -/
structure Unentered (g : Graph) (paths : List MergedPath) : Prop where
  edge : ∀ l ∈ g.edges, ¬ Absorbed paths l.target
  cover : ∀ l ∈ g.covers, ¬ Absorbed paths l.target

/-- Where a node of a reworked graph stands in the graph before: a new one stands
at the source of the split. -/
def origin (g : Graph) (set : BranchSet) (id : NodeId) : NodeId :=
  if id < g.next then id else set.source

theorem origin_old {g : Graph} (h : Sound g) (set : BranchSet) {id : NodeId} (hid : id ∈ g.nodes) :
    g.origin set id = id := if_pos (h.in_range id hid).2

theorem origin_new {g : Graph} (set : BranchSet) {id : NodeId} (hid : g.next ≤ id) :
    g.origin set id = set.source := if_neg (Nat.not_lt.mpr hid)

namespace Reworked

variable {g g' : Graph} {set : BranchSet} {paths : List MergedPath} {a b : NodeId}

/-! ## Branches that are merged -/

theorem source_mem (h : Reworked g g' set paths) : set.source ∈ g.nodes := by
  obtain ⟨cases, hq⟩ := h.qualified
  exact h.sound.split_source _ hq.source_mem_splits

theorem exists_branch (h : Reworked g g' set paths) (ha : Absorbed paths a) :
    ∃ p ∈ paths, ∃ br ∈ p.branches, br.node = a := by
  obtain ⟨p, hp, ha⟩ := ha
  rw [← (h.members p hp).nodes] at ha
  obtain ⟨br, hbr, he⟩ := List.mem_map.mp ha
  exact ⟨p, hp, br, hbr, he⟩

theorem absorbed_node (h : Reworked g g' set paths) {p : MergedPath} (hp : p ∈ paths) {br : Branch}
    (hbr : br ∈ p.branches) : Absorbed paths br.node := by
  refine ⟨p, hp, ?_⟩
  rw [← (h.members p hp).nodes]
  exact List.mem_map_of_mem hbr

theorem branchAt (h : Reworked g g' set paths) {p : MergedPath} (hp : p ∈ paths) {br : Branch}
    (hbr : br ∈ p.branches) : ∃ cases, BranchAt g set.source cases br := by
  obtain ⟨cases, hq⟩ := h.qualified
  exact ⟨cases, hq.branch br ((h.members p hp).mem br hbr)⟩

theorem branchesTo_iff (h : Reworked g g' set paths) (hb : Absorbed paths b) :
    BranchesTo g.splits a b ↔ a = set.source := by
  obtain ⟨p, hp, br, hbr, rfl⟩ := h.exists_branch hb
  obtain ⟨cases, hat⟩ := h.branchAt hp hbr
  rw [← mem_splitSourcesOf, hat.owners, List.mem_singleton]

theorem mem_nodes_of_absorbed (h : Reworked g g' set paths) (ha : Absorbed paths a) :
    a ∈ g.nodes := h.sound.split_target _ _ ((h.branchesTo_iff ha).mpr rfl)

theorem edge_of_branch (h : Reworked g g' set paths) {p : MergedPath} (hp : p ∈ paths)
    {br : Branch} (hbr : br ∈ p.branches) :
    g.edges.get? ⟨br.node, br.target⟩ = some br.steps := by
  obtain ⟨cases, hat⟩ := h.branchAt hp hbr
  exact hat.get?_edge

/-- A merged branch has led to its target and to nothing else. -/
theorem exists_target (h : Reworked g g' set paths) (ha : Absorbed paths a) {l : Link}
    {steps : Chain} (hl : g.edges.get? l = some steps) (hla : l.source = a) :
    ∃ p ∈ paths, ∃ br ∈ p.branches, l = ⟨br.node, br.target⟩ ∧ steps = br.steps := by
  obtain ⟨p, hp, br, hbr, rfl⟩ := h.exists_branch ha
  obtain ⟨cases, hat⟩ := h.branchAt hp hbr
  obtain ⟨rfl, rfl⟩ := hat.get?_edge_iff.mp ⟨hl, hla⟩
  exact ⟨p, hp, br, hbr, rfl, rfl⟩

theorem target_mem (h : Reworked g g' set paths) {p : MergedPath} (hp : p ∈ paths) {br : Branch}
    (hbr : br ∈ p.branches) : br.target ∈ g.nodes :=
  (h.sound.edge_ends _ (Table.mem_of_get? (h.edge_of_branch hp hbr))).2

theorem target_not_absorbed (h : Reworked g g' set paths) {p : MergedPath} (hp : p ∈ paths)
    {br : Branch} (hbr : br ∈ p.branches) : ¬ Absorbed paths br.target := by
  rintro ⟨q, hq, hm⟩
  obtain ⟨cases, hqual⟩ := h.qualified
  obtain ⟨b, hb, he⟩ := (h.members q hq).exists_branch hm
  exact hqual.target_ne_node ((h.members p hp).mem br hbr) hb he.symm

/-! ## Nodes, edges and splits after -/

theorem mem_nodes (h : Reworked g g' set paths) (ha : a ∈ g.nodes) :
    a ∈ g'.nodes ↔ ¬ Absorbed paths a := by
  refine ⟨fun hin habs => h.absorbed a habs hin, fun hno => ?_⟩
  obtain ⟨c, hc⟩ := Table.mem_iff.mp ha
  exact Table.mem_of_get? ((h.node a ha hno).trans hc)

theorem mem_edges (h : Reworked g g' set paths) {l : Link} : l ∈ g'.edges ↔
    (¬ Absorbed paths l.source ∧ ¬ Absorbed paths l.target ∧ l ∈ g.edges) ∨
      ∃ p ∈ paths, l = p.link := by
  simp only [Table.mem_iff, h.edge, exists_or, exists_and_left]
  refine or_congr Iff.rfl ⟨?_, ?_⟩
  · rintro ⟨steps, p, hp, hl, -⟩
    exact ⟨p, hp, hl⟩
  · rintro ⟨p, hp, hl⟩
    exact ⟨_, p, hp, hl, rfl⟩

theorem mem_covers (h : Reworked g g' set paths) {l : Link} : l ∈ g'.covers ↔
    ¬ Absorbed paths l.source ∧ ¬ Absorbed paths l.target ∧ l ∈ g.covers := by
  simp only [Table.mem_iff, h.cover, exists_and_left]

theorem merged_not_mem (h : Reworked g g' set paths) {p : MergedPath} (hp : p ∈ paths) :
    p.group.merged ∉ g.nodes := h.sound.not_mem_of_le (h.merged_new p hp)

/-- The only node that a path can start at and that is not fresh is the source. -/
theorem anchor_eq_source (h : Reworked g g' set paths) {p : MergedPath} (hp : p ∈ paths)
    (ha : p.group.anchor ∈ g.nodes) : p.group.anchor = set.source :=
  (h.anchor p hp).resolve_right fun hle => h.sound.not_mem_of_le hle ha

theorem link_mem (h : Reworked g g' set paths) {p : MergedPath} (hp : p ∈ paths) :
    p.link ∈ g'.edges := h.mem_edges.mpr (Or.inr ⟨p, hp, rfl⟩)

theorem leads_to_target (h : Reworked g g' set paths) {p : MergedPath} (hp : p ∈ paths)
    {br : Branch} (hbr : br ∈ p.branches) : g'.Leads p.group.merged br.target :=
  Or.inr (Or.inr ((h.branchesTo _ _).mpr (Or.inr (Or.inr ⟨p, hp, rfl, br, hbr, rfl⟩))))

theorem exists_target_of_merged (h : Reworked g g' set paths) {p : MergedPath} (hp : p ∈ paths) :
    ∃ b, BranchesTo g'.splits p.group.merged b := by
  obtain ⟨br, hbr⟩ := List.exists_mem_of_ne_nil _ (h.members p hp).nonempty
  exact ⟨br.target, (h.branchesTo _ _).mpr (Or.inr (Or.inr ⟨p, hp, rfl, br, hbr, rfl⟩))⟩

/-- A path starts by an edge and ends in a split, so no anchor is an end. -/
theorem anchor_ne_merged (h : Reworked g g' set paths) {p q : MergedPath} (hp : p ∈ paths)
    (hq : q ∈ paths) : p.group.anchor ≠ q.group.merged := by
  intro he
  obtain ⟨b, c, hc, -⟩ := h.exists_target_of_merged hq
  exact h.sound'.no_edge _ (Table.mem_of_get? hc) p.link (h.link_mem hp) he

theorem source_to_anchor (h : Reworked g g' set paths) {p : MergedPath} (hp : p ∈ paths) :
    ReflTransGen g'.Leads set.source p.group.anchor := by
  by_cases he : p.group.anchor = set.source
  · rw [he]
  · exact .single (Or.inr (Or.inr ((h.branchesTo _ _).mpr (Or.inr (Or.inl ⟨rfl, he, p, hp, rfl⟩)))))

theorem source_to_target (h : Reworked g g' set paths) {p : MergedPath} (hp : p ∈ paths)
    {br : Branch} (hbr : br ∈ p.branches) : ReflTransGen g'.Leads set.source br.target :=
  ((h.source_to_anchor hp).tail (Or.inl (h.link_mem hp))).tail (h.leads_to_target hp hbr)

theorem source_leads (h : Reworked g g' set paths) : ∃ b, g'.Leads set.source b := by
  obtain ⟨p, hp⟩ := List.exists_mem_of_ne_nil _ h.nonempty
  by_cases he : p.group.anchor = set.source
  · have hlink : ⟨p.group.anchor, p.group.merged⟩ ∈ g'.edges := h.link_mem hp
    rw [he] at hlink
    exact ⟨_, Or.inl hlink⟩
  · exact ⟨_, Or.inr (Or.inr ((h.branchesTo _ _).mpr (Or.inr (Or.inl ⟨rfl, he, p, hp, rfl⟩))))⟩

/-! ## No walk is new -/

/-- A step either was one before, or has been made for the split. -/
theorem leads_cases (h : Reworked g g' set paths) (hab : g'.Leads a b) :
    (g.Leads a b ∧ ¬ Absorbed paths a ∧ ¬ Absorbed paths b) ∨
      (∃ p ∈ paths, a = p.group.anchor ∧ b = p.group.merged) ∨
      (a = set.source ∧ ∃ p ∈ paths, b = p.group.anchor ∧ g.next ≤ b) ∨
      ∃ p ∈ paths, a = p.group.merged ∧ ∃ br ∈ p.branches, br.target = b := by
  rcases hab with hab | hab | hab
  · rcases h.mem_edges.mp hab with ⟨ha, hb, hab⟩ | ⟨p, hp, he⟩
    · exact Or.inl ⟨Or.inl hab, ha, hb⟩
    · obtain ⟨rfl, rfl⟩ := Link.mk.inj he
      exact Or.inr (Or.inl ⟨p, hp, rfl, rfl⟩)
  · obtain ⟨ha, hb, hab⟩ := h.mem_covers.mp hab
    exact Or.inl ⟨Or.inr (Or.inl hab), ha, hb⟩
  · rcases (h.branchesTo a b).mp hab with ⟨ha, hb, hab⟩ | ⟨rfl, hne, p, hp, rfl⟩ | hmerged
    · exact Or.inl ⟨Or.inr (Or.inr hab), ha, hb⟩
    · exact Or.inr (Or.inr (Or.inl ⟨rfl, p, hp, rfl, (h.anchor p hp).resolve_left hne⟩))
    · exact Or.inr (Or.inr (Or.inr hmerged))

theorem origin_anchor (h : Reworked g g' set paths) {p : MergedPath} (hp : p ∈ paths) :
    g.origin set p.group.anchor = set.source := by
  rcases h.anchor p hp with he | hle
  · rw [he, origin_old h.sound set h.source_mem]
  · exact origin_new set hle

theorem leads_back (h : Reworked g g' set paths) (hab : g'.Leads a b) :
    ReflTransGen g.Leads (g.origin set a) (g.origin set b) := by
  rcases h.leads_cases hab with ⟨hab, -, -⟩ | ⟨p, hp, rfl, rfl⟩ | ⟨rfl, p, hp, rfl, -⟩ |
    ⟨p, hp, rfl, br, hbr, rfl⟩
  · obtain ⟨ha, hb⟩ := hab.mem_nodes h.sound
    rw [origin_old h.sound set ha, origin_old h.sound set hb]
    exact .single hab
  · rw [h.origin_anchor hp, origin_new set (h.merged_new p hp)]
  · rw [h.origin_anchor hp, origin_old h.sound set h.source_mem]
  -- the split at the end of a path stands for its branch and the edge out of it
  · have hnode := (h.branchesTo_iff (h.absorbed_node hp hbr)).mpr rfl
    rw [origin_new set (h.merged_new p hp), origin_old h.sound set (h.target_mem hp hbr)]
    exact .tail (.single (Or.inr (Or.inr hnode)))
      (Or.inl (Table.mem_of_get? (h.edge_of_branch hp hbr)))

theorem walk_back (h : Reworked g g' set paths) (ha : a ∈ g.nodes) (hb : b ∈ g.nodes)
    (hwalk : ReflTransGen g'.Leads a b) : ReflTransGen g.Leads a b := by
  have hback : ReflTransGen g.Leads (g.origin set a) (g.origin set b) :=
    ReflTransGen.lift' (g.origin set) (fun _ _ => h.leads_back) _ _ hwalk
  rwa [origin_old h.sound set ha, origin_old h.sound set hb] at hback

/-! ## No walk is lost -/

theorem leads_kept (h : Reworked g g' set paths) (ha : ¬ Absorbed paths a)
    (hb : ¬ Absorbed paths b) (hab : g.Leads a b) : g'.Leads a b := by
  rcases hab with hab | hab | hab
  · exact Or.inl (h.mem_edges.mpr (Or.inl ⟨ha, hb, hab⟩))
  · exact Or.inr (Or.inl (h.mem_covers.mpr ⟨ha, hb, hab⟩))
  · exact Or.inr (Or.inr ((h.branchesTo a b).mpr (Or.inl ⟨ha, hb, hab⟩)))

theorem leads_from_absorbed (h : Reworked g g' set paths) (ha : Absorbed paths a)
    (hab : g.Leads a b) : ∃ p ∈ paths, ∃ br ∈ p.branches, br.node = a ∧ br.target = b := by
  rcases hab with hab | hab | hab
  · obtain ⟨steps, hsteps⟩ := Table.mem_iff.mp hab
    obtain ⟨p, hp, br, hbr, he, -⟩ := h.exists_target ha hsteps rfl
    obtain ⟨rfl, rfl⟩ := Link.mk.inj he
    exact ⟨p, hp, br, hbr, rfl, rfl⟩
  · obtain ⟨p, hp, br, hbr, rfl⟩ := h.exists_branch ha
    obtain ⟨cases, hat⟩ := h.branchAt hp hbr
    exact absurd rfl (hat.no_cover _ hab)
  · obtain ⟨p, hp, br, hbr, rfl⟩ := h.exists_branch ha
    obtain ⟨cases, hat⟩ := h.branchAt hp hbr
    obtain ⟨c, hc, -⟩ := hab
    exact absurd (Table.mem_of_get? hc) hat.no_split

theorem leads_to_absorbed (h : Reworked g g' set paths) (hclear : Unentered g paths)
    (hb : Absorbed paths b) (hab : g.Leads a b) : a = set.source := by
  rcases hab with hab | hab | hab
  · exact absurd hb (hclear.edge _ hab)
  · exact absurd hb (hclear.cover _ hab)
  · exact (h.branchesTo_iff hb).mp hab

theorem walk_kept (h : Reworked g g' set paths) (hclear : Unentered g paths)
    (ha : ¬ Absorbed paths a) (hb : ¬ Absorbed paths b) (hwalk : ReflTransGen g.Leads a b) :
    ReflTransGen g'.Leads a b := by
  -- from the end of the walk back: what is walked from a merged branch on can be
  -- walked from the source of its split
  have hboth : (¬ Absorbed paths a → ReflTransGen g'.Leads a b) ∧
      (Absorbed paths a → ReflTransGen g'.Leads set.source b) := by
    clear ha
    induction hwalk using ReflTransGen.head_induction_on with
    | refl => exact ⟨fun _ => .refl, fun habs => absurd habs hb⟩
    | @head x y hxy _ ih =>
      refine ⟨fun hx => ?_, fun hx => ?_⟩
      · by_cases hy : Absorbed paths y
        · rw [h.leads_to_absorbed hclear hy hxy]
          exact ih.2 hy
        · exact .head (h.leads_kept hx hy hxy) (ih.1 hy)
      · obtain ⟨p, hp, br, hbr, -, rfl⟩ := h.leads_from_absorbed hx hxy
        exact (h.source_to_target hp hbr).trans (ih.1 (h.target_not_absorbed hp hbr))
  exact hboth.1 ha

theorem leaves_kept (h : Reworked g g' set paths) (hclear : Unentered g paths) :
    g'.leaves = g.leaves := by
  refine leaves_eq fun x => ?_
  rw [mem_leaves, mem_leaves]
  constructor
  · rintro ⟨hx, hleaf⟩
    have hold : x ∈ g.nodes := by
      rcases h.node_new x hx with hold | ⟨p, hp, rfl | rfl⟩
      · exact hold
      · exact absurd (Or.inl (h.link_mem hp)) (hleaf p.group.merged)
      · obtain ⟨b, hb⟩ := h.exists_target_of_merged hp
        exact absurd (Or.inr (Or.inr hb)) (hleaf b)
    refine ⟨hold, fun b hb => ?_⟩
    by_cases habs : Absorbed paths b
    · obtain ⟨c, hc⟩ := h.source_leads
      exact hleaf c (h.leads_to_absorbed hclear habs hb ▸ hc)
    · exact hleaf b (h.leads_kept ((h.mem_nodes hold).mp hx) habs hb)
  · rintro ⟨hx, hleaf⟩
    have habs : ¬ Absorbed paths x := by
      intro habs
      obtain ⟨p, hp, br, hbr, rfl⟩ := h.exists_branch habs
      exact hleaf _ (Or.inl (Table.mem_of_get? (h.edge_of_branch hp hbr)))
    have hsource : x ≠ set.source := by
      rintro rfl
      obtain ⟨p, hp⟩ := List.exists_mem_of_ne_nil _ h.nonempty
      obtain ⟨br, hbr⟩ := List.exists_mem_of_ne_nil _ (h.members p hp).nonempty
      exact hleaf _ (Or.inr (Or.inr ((h.branchesTo_iff (h.absorbed_node hp hbr)).mpr rfl)))
    refine ⟨(h.mem_nodes hx).mpr habs, fun b hb => ?_⟩
    rcases h.leads_cases hb with ⟨hb, -⟩ | ⟨p, hp, he, -⟩ | ⟨he, -⟩ | ⟨p, hp, he, -⟩
    · exact hleaf b hb
    · exact hsource (he.trans (h.anchor_eq_source hp (he ▸ hx)))
    · exact hsource he
    · exact h.merged_not_mem hp (he ▸ hx)

/-- Every edge is still there, or its chain is a part of a merged one. -/
theorem chain_kept (h : Reworked g g' set paths) (hclear : Unentered g paths) {l : Link}
    {steps : Chain} (hl : g.edges.get? l = some steps) :
    ∃ l' steps', g'.edges.get? l' = some steps' ∧ steps <:+: steps' := by
  by_cases hs : Absorbed paths l.source
  · obtain ⟨p, hp, br, hbr, -, rfl⟩ := h.exists_target hs hl rfl
    refine ⟨p.link, set.chain p.branches, (h.edge _ _).mpr (Or.inr ⟨p, hp, rfl, rfl⟩), ?_⟩
    exact BranchSet.steps_infix_chain set hbr
  · exact ⟨l, steps, (h.edge _ _).mpr
      (Or.inl ⟨hs, hclear.edge l (Table.mem_of_get? hl), hl⟩), List.infix_rfl⟩

end Reworked

end Graph

end StateGraph
