-- Splits that never qualify again. While other splits are merged, a qualifying one
-- is either left as it was, or it gets stuck for good: another split then shares a
-- branch of it, or a branch has lost its edge.
import StateGraph.Proofs.Rerouting

namespace StateGraph

namespace Graph

/-- The split of a source cannot qualify: one of its branches belongs to another
split too, or leads nowhere. -/
def Stuck (g : Graph) (source : NodeId) : Prop :=
  ∃ b, BranchesTo g.splits source b ∧
    ((∃ other, other ≠ source ∧ BranchesTo g.splits other b) ∨
      (b ∉ g.splits ∧ ∀ l ∈ g.edges, l.source ≠ b))

/-- A node that is never merged again: it has gone, or it is a branch of a stuck
split. -/
def Spent (g : Graph) (id : NodeId) : Prop :=
  (id < g.next ∧ id ∉ g.nodes) ∨ ∃ source, Stuck g source ∧ BranchesTo g.splits source id

/-- A split is as it was found, or its branches are never merged again. -/
def CurrentOrSpent (g : Graph) (set : BranchSet) : Prop :=
  g.branchSet? set.source = some set ∨ ∀ b ∈ set.branches, Spent g b.node

variable {g g' : Graph} {set other : BranchSet} {cases : Cases} {paths : List MergedPath}

theorem not_stuck_of_qualified (h : Qualified g set cases) : ¬ Stuck g set.source := by
  rintro ⟨b, hb, hstuck⟩
  obtain ⟨br, hbr, rfl⟩ := h.exists_branch hb
  have hat := h.branch br hbr
  rcases hstuck with ⟨other, hne, hother⟩ | ⟨-, hnowhere⟩
  · rw [← mem_splitSourcesOf, hat.owners, List.mem_singleton] at hother
    exact hne hother
  · exact hnowhere _ (Table.mem_of_get? hat.get?_edge) rfl

/-- A branch of a qualifying split can still be merged. -/
theorem not_spent_of_qualified (hg : g.Sound) (h : Qualified g set cases) {b : Branch}
    (hb : b ∈ set.branches) : ¬ Spent g b.node := by
  rintro (⟨-, hgone⟩ | ⟨source, hstuck, hbranch⟩)
  · exact hgone (hg.split_target _ _ (h.branchesTo hb))
  · rw [← mem_splitSourcesOf, (h.branch b hb).owners, List.mem_singleton] at hbranch
    exact not_stuck_of_qualified h (hbranch ▸ hstuck)

theorem Reconfigured.spent (h : Reconfigured g g') {id : NodeId} (hid : Spent g id) :
    Spent g' id := by
  unfold Spent Stuck
  rw [h.next_eq, h.splits_eq, h.edges_eq, h.mem_iff]
  exact hid

/-! ## What a reworked split leaves of the others -/

namespace Reworked

theorem source_splits (h : Reworked g g' set paths) : set.source ∈ g.splits := by
  obtain ⟨cases, hq⟩ := h.qualified
  exact hq.source_mem_splits

theorem absorbed_no_split (h : Reworked g g' set paths) {id : NodeId} (hid : Absorbed paths id) :
    id ∉ g.splits := by
  obtain ⟨p, hp, br, hbr, rfl⟩ := h.exists_branch hid
  obtain ⟨cases, hat⟩ := h.branchAt hp hbr
  exact hat.no_split

theorem branchesTo_kept (h : Reworked g g' set paths) {a b : NodeId} (hne : a ≠ set.source)
    (hab : BranchesTo g.splits a b) : BranchesTo g'.splits a b := by
  obtain ⟨c, hc, -⟩ := id hab
  refine (h.branchesTo a b).mpr (Or.inl ⟨?_, fun hb => hne ((h.branchesTo_iff hb).mp hab), hab⟩)
  exact fun ha => h.absorbed_no_split ha (Table.mem_of_get? hc)

/-- A split that is not reworked stays as it is, also one that is not there. -/
theorem split_kept (h : Reworked g g' set paths) {id : NodeId} (hid : id ∈ g.nodes)
    (hne : id ≠ set.source) (hno : ¬ Absorbed paths id) :
    g'.splits.get? id = g.splits.get? id :=
  h.split id hid hne hno fun _ ht habs => hne ((h.branchesTo_iff habs).mp ht)

/-- No old node gets a split. -/
theorem no_split_kept (h : Reworked g g' set paths) {id : NodeId} (hid : id ∈ g.nodes)
    (hno : id ∉ g.splits) : id ∉ g'.splits := by
  intro hin
  obtain ⟨t, ht⟩ := h.sound'.split_branch id hin
  rcases (h.branchesTo id t).mp ht with ⟨-, -, c, hc, -⟩ | ⟨rfl, -⟩ | ⟨p, hp, rfl, -⟩
  · exact hno (Table.mem_of_get? hc)
  · exact hno h.source_splits
  · exact h.merged_not_mem hp hid

/-- No old node without a split gets an edge. -/
theorem edge_before (h : Reworked g g' set paths) {l : Link} {steps : Chain}
    (hl : g'.edges.get? l = some steps) (hs : l.source ∈ g.nodes) (hno : l.source ∉ g.splits) :
    g.edges.get? l = some steps := by
  rcases (h.edge l steps).mp hl with ⟨-, -, hl⟩ | ⟨p, hp, rfl, -⟩
  · exact hl
  · have he : p.link.source = set.source := h.anchor_eq_source hp hs
    exact absurd (he ▸ h.source_splits) hno

theorem stuck (h : Reworked g g' set paths) {source : NodeId} (hstuck : Stuck g source) :
    Stuck g' source := by
  obtain ⟨cases, hq⟩ := h.qualified
  have hne : source ≠ set.source := fun he => not_stuck_of_qualified hq (he ▸ hstuck)
  obtain ⟨b, hb, hstuck⟩ := hstuck
  refine ⟨b, h.branchesTo_kept hne hb, ?_⟩
  rcases hstuck with ⟨other, hother, hob⟩ | ⟨hno, hnowhere⟩
  · refine Or.inl ⟨other, hother, h.branchesTo_kept (fun he => ?_) hob⟩
    -- a branch of the reworked split belongs to that split alone
    obtain ⟨br, hbr, rfl⟩ := hq.exists_branch (he ▸ hob)
    rw [← mem_splitSourcesOf, (hq.branch br hbr).owners, List.mem_singleton] at hb
    exact hne hb
  · have hold := h.sound.split_target _ _ hb
    refine Or.inr ⟨h.no_split_kept hold hno, fun l hl he => ?_⟩
    obtain ⟨steps, hsteps⟩ := Table.mem_iff.mp hl
    have hbefore := h.edge_before hsteps (he ▸ hold) (he ▸ hno)
    exact hnowhere l (Table.mem_of_get? hbefore) he

theorem spent (h : Reworked g g' set paths) {id : NodeId} (hid : Spent g id) : Spent g' id := by
  rcases hid with ⟨hlt, hgone⟩ | ⟨source, hstuck, hbranch⟩
  · refine Or.inl ⟨Nat.lt_of_lt_of_le hlt h.grows.next_le, fun hin => ?_⟩
    exact (h.grows.fresh id hin).elim hgone (Nat.not_le.mpr hlt)
  · obtain ⟨cases, hq⟩ := h.qualified
    have hne : source ≠ set.source := fun he => not_stuck_of_qualified hq (he ▸ hstuck)
    exact Or.inr ⟨source, h.stuck hstuck, h.branchesTo_kept hne hbranch⟩

/-- What has been merged is gone. -/
theorem absorbed_spent (h : Reworked g g' set paths) {id : NodeId} (hid : Absorbed paths id) :
    Spent g' id := by
  have hlt := (h.sound.in_range id (h.mem_nodes_of_absorbed hid)).2
  exact Or.inl ⟨Nat.lt_of_lt_of_le hlt h.grows.next_le, h.absorbed id hid⟩

/-! ## Other qualifying splits -/

theorem splitSourcesOf_eq {b source : NodeId} (h : ∀ a, BranchesTo g.splits a b ↔ a = source) :
    g.splitSourcesOf b = [source] := by
  have hnodup : (g.splitSourcesOf b).Nodup :=
    g.splits.keys_nodup.sublist (List.filter_sublist.map _)
  refine List.perm_singleton.mp ((List.perm_ext_iff_of_nodup hnodup (List.nodup_singleton _)).mpr ?_)
  intro a
  rw [mem_splitSourcesOf, h, List.mem_singleton]

theorem edgesWhere_eq {s : NodeId} {e : Link × Chain} (hsome : ∃ l ∈ g.edges, l.source = s)
    (hall : ∀ e' ∈ g.edgesWhere (some s) none, e' = e) : g.edgesWhere (some s) none = [e] := by
  obtain ⟨l, hl, hs⟩ := hsome
  obtain ⟨steps, hsteps⟩ := Table.mem_iff.mp hl
  have hin := mem_edgesWhere_source.mpr ⟨hsteps, hs⟩
  have hnodup : (g.edgesWhere (some s) none).Nodup := g.edges.keys_nodup.of_map.filter _
  refine List.perm_singleton.mp ((List.perm_ext_iff_of_nodup hnodup (List.nodup_singleton _)).mpr ?_)
  intro e'
  rw [List.mem_singleton]
  exact ⟨hall e', fun he => by rw [he, ← hall _ hin]; exact hin⟩

/-- A branch of another split stays one, unless its split gets stuck by it. -/
theorem branchAt_kept (h : Reworked g g' set paths) (hne : other.source ≠ set.source)
    (hq : Qualified g other cases) (hfree : ¬ Stuck g' other.source) {b : Branch}
    (hb : b ∈ other.branches) : BranchAt g' other.source cases b := by
  have hat := hq.branch b hb
  have hbranch := hq.branchesTo hb
  have hold := h.sound.split_target _ _ hbranch
  have hkept : ¬ Absorbed paths b.node := fun habs => hne ((h.branchesTo_iff habs).mp hbranch)
  have hno := h.no_split_kept hold hat.no_split
  have hbranch' := h.branchesTo_kept hne hbranch
  have hsome : ∃ l ∈ g'.edges, l.source = b.node := by
    by_contra hnone
    push Not at hnone
    exact hfree ⟨b.node, hbranch', Or.inr ⟨hno, hnone⟩⟩
  have hedge : ∀ e ∈ g'.edgesWhere (some b.node) none, e = (⟨b.node, b.target⟩, b.steps) := by
    rintro ⟨l, steps⟩ he
    obtain ⟨hl, hs⟩ := mem_edgesWhere_source.mp he
    have hbefore := h.edge_before hl (hs ▸ hold) (hs ▸ hat.no_split)
    obtain ⟨rfl, rfl⟩ := hat.get?_edge_iff.mp ⟨hbefore, hs⟩
    rfl
  exact {
    owners := splitSourcesOf_eq fun a => ⟨fun ha => by_contra fun hne' =>
      hfree ⟨b.node, hbranch', Or.inl ⟨a, hne', ha⟩⟩, fun he => he ▸ hbranch'⟩
    no_split := hno
    no_cover := fun l hl => hat.no_cover l (h.mem_covers.mp hl).2.2
    edge := edgesWhere_eq hsome hedge
    target_ne := hat.target_ne
    target_out := hat.target_out
    config := (h.node b.node hold hkept).trans hat.config }

/-- Another split that qualifies still does, as the same set, or it is stuck. -/
theorem qualified_or_stuck (h : Reworked g g' set paths) (hne : other.source ≠ set.source)
    (hq : Qualified g other cases) : Qualified g' other cases ∨ Stuck g' other.source := by
  refine (Classical.em (Stuck g' other.source)).symm.imp_left fun hfree => ?_
  have hsplits := hq.source_mem_splits
  have hsplit := h.split_kept (h.sound.split_source _ hsplits) hne fun habs =>
    h.absorbed_no_split habs hsplits
  exact ⟨hsplit.trans hq.split, hq.shared, hq.many, hq.entries,
    fun b hb => h.branchAt_kept hne hq hfree hb⟩

theorem currentOrSpent (h : Reworked g g' set paths) (hne : other.source ≠ set.source)
    (hother : CurrentOrSpent g other) : CurrentOrSpent g' other := by
  rcases hother with hcurrent | hspent
  · obtain ⟨-, cases, hq⟩ := branchSet?_eq_some hcurrent
    rcases h.qualified_or_stuck hne hq with hq' | hstuck
    · exact Or.inl (branchSet?_of_qualified hq')
    · exact Or.inr fun b hb =>
        Or.inr ⟨other.source, hstuck, h.branchesTo_kept hne (hq.branchesTo hb)⟩
  · exact Or.inr fun b hb => h.spent (hspent b hb)

end Reworked

end Graph

end StateGraph
