-- Graphs in which no two paths meet, but for those that splits bring together.
-- Merging keeps them so: the splits it adds lead to nodes whose one edge in it has
-- taken away.
import StateGraph.Proofs.Rerouting

namespace StateGraph

namespace Graph

/-- The nodes that edges and covers enter, one time for each. -/
def entered (g : Graph) : List NodeId := (g.edges.keys ++ g.covers.keys).map (·.target)

/-- No two edges or covers enter one node, and none enters a branch of a split. -/
def TreeLike (g : Graph) : Prop :=
  g.entered.Nodup ∧ ∀ e ∈ g.splits.toList, ∀ t ∈ e.2.targets, t ∉ g.entered

instance (g : Graph) : Decidable g.TreeLike := inferInstanceAs (Decidable (_ ∧ _))

/-- What enters what in a graph that is like a tree. -/
structure Ramifies (g : Graph) : Prop where
  edge : ∀ l ∈ g.edges, ∀ l' ∈ g.edges, l.target = l'.target → l = l'
  cover : ∀ l ∈ g.covers, ∀ l' ∈ g.covers, l.target = l'.target → l = l'
  edge_cover : ∀ l ∈ g.edges, ∀ l' ∈ g.covers, l.target ≠ l'.target
  edge_branch : ∀ l ∈ g.edges, ∀ a, ¬ BranchesTo g.splits a l.target
  cover_branch : ∀ l ∈ g.covers, ∀ a, ¬ BranchesTo g.splits a l.target

variable {g g' : Graph} {set : BranchSet} {paths : List MergedPath}

theorem mem_entered {id : NodeId} : id ∈ g.entered ↔
    (∃ l ∈ g.edges, l.target = id) ∨ ∃ l ∈ g.covers, l.target = id := by
  simp only [entered, List.map_append, List.mem_append, List.mem_map, Table.mem_keys]

/-- The branches that are taken in are entered by their split alone. -/
theorem unentered_of_members (h : ∀ p ∈ paths, ∀ m ∈ p.group.members, m ∉ g.entered) :
    Unentered g paths where
  edge := by
    rintro l hl ⟨p, hp, hm⟩
    exact h p hp _ hm (mem_entered.mpr (Or.inl ⟨l, hl, rfl⟩))
  cover := by
    rintro l hl ⟨p, hp, hm⟩
    exact h p hp _ hm (mem_entered.mpr (Or.inr ⟨l, hl, rfl⟩))

theorem TreeLike.ramifies (h : g.TreeLike) : g.Ramifies := by
  obtain ⟨hnodup, hbranch⟩ := h
  have hedges : ∀ l ∈ g.edges, l ∈ g.edges.keys ++ g.covers.keys := fun l hl =>
    List.mem_append_left _ (Table.mem_keys.mpr hl)
  have hcovers : ∀ l ∈ g.covers, l ∈ g.edges.keys ++ g.covers.keys := fun l hl =>
    List.mem_append_right _ (Table.mem_keys.mpr hl)
  have hno_branch : ∀ l ∈ g.edges.keys ++ g.covers.keys, ∀ a, ¬ BranchesTo g.splits a l.target := by
    rintro l hl a ⟨cases, hcases, ht⟩
    exact hbranch _ (Table.get?_eq_some.mp hcases) _ (Table.mem_keys.mpr ht)
      (List.mem_map_of_mem hl)
  refine ⟨fun l hl l' hl' he => ?_, fun l hl l' hl' he => ?_, fun l hl l' hl' he => ?_,
    fun l hl => hno_branch l (hedges l hl), fun l hl => hno_branch l (hcovers l hl)⟩
  · exact List.inj_on_of_nodup_map hnodup (hedges l hl) (hedges l' hl') he
  · exact List.inj_on_of_nodup_map hnodup (hcovers l hl) (hcovers l' hl') he
  · unfold entered at hnodup
    rw [List.map_append] at hnodup
    exact (List.nodup_append.mp hnodup).2.2 _ (List.mem_map_of_mem (Table.mem_keys.mpr hl)) _
      (List.mem_map_of_mem (Table.mem_keys.mpr hl')) he

theorem Ramifies.reconfigured (h : g.Ramifies) (hg : Reconfigured g g') : g'.Ramifies := by
  obtain ⟨hedge, hcover, hedge_cover, hedge_branch, hcover_branch⟩ := h
  rw [← hg.edges_eq] at hedge hedge_cover hedge_branch
  rw [← hg.covers_eq] at hcover hedge_cover hcover_branch
  rw [← hg.splits_eq] at hedge_branch hcover_branch
  exact ⟨hedge, hcover, hedge_cover, hedge_branch, hcover_branch⟩

/-- Nothing else enters what a split branches to. -/
theorem Ramifies.not_mem_entered (h : g.Ramifies) {a b : NodeId} (hab : BranchesTo g.splits a b) :
    b ∉ g.entered := by
  intro hb
  rcases mem_entered.mp hb with ⟨l, hl, rfl⟩ | ⟨l, hl, rfl⟩
  · exact h.edge_branch l hl a hab
  · exact h.cover_branch l hl a hab

namespace Reworked

/-- A path is told by where it ends. -/
theorem eq_of_merged_eq (h : Reworked g g' set paths) {p q : MergedPath} (hp : p ∈ paths)
    (hq : q ∈ paths) (he : p.group.merged = q.group.merged) : p = q := by
  refine List.inj_on_of_nodup_map (f := fun p : MergedPath => p.group.merged) ?_ hp hq he
  exact List.pairwise_map.mpr (h.apart.imp Nat.ne_of_lt)

/-- A split branches to an old node only if one did before, or if a merged branch
has led to the node. -/
theorem branchesTo_old (h : Reworked g g' set paths) {a b : NodeId} (hb : b ∈ g.nodes)
    (hab : BranchesTo g'.splits a b) :
    BranchesTo g.splits a b ∨ ∃ p ∈ paths, ∃ br ∈ p.branches, br.target = b := by
  rcases (h.branchesTo a b).mp hab with ⟨-, -, hab⟩ | ⟨-, hne, p, hp, rfl⟩ | ⟨p, hp, -, hbr⟩
  · exact Or.inl hab
  · exact absurd (h.anchor_eq_source hp hb) hne
  · exact Or.inr ⟨p, hp, hbr⟩

theorem ramifies (h : Reworked g g' set paths) (ht : g.Ramifies) : g'.Ramifies := by
  have hold : ∀ l ∈ g.edges, ∀ p ∈ paths, l.target ≠ p.group.merged := fun l hl p hp he =>
    h.merged_not_mem hp (he ▸ (h.sound.edge_ends l hl).2)
  refine ⟨fun l hl l' hl' he => ?_, fun l hl l' hl' he => ?_, fun l hl l' hl' he => ?_,
    fun l hl a hab => ?_, fun l hl a hab => ?_⟩
  · rcases h.mem_edges.mp hl with ⟨-, -, hl⟩ | ⟨p, hp, rfl⟩ <;>
      rcases h.mem_edges.mp hl' with ⟨-, -, hl'⟩ | ⟨q, hq, rfl⟩
    · exact ht.edge l hl l' hl' he
    · exact absurd he (hold l hl q hq)
    · exact absurd he.symm (hold l' hl' p hp)
    · rw [h.eq_of_merged_eq hp hq he]
  · exact ht.cover l (h.mem_covers.mp hl).2.2 l' (h.mem_covers.mp hl').2.2 he
  · obtain ⟨-, -, hl'⟩ := h.mem_covers.mp hl'
    rcases h.mem_edges.mp hl with ⟨-, -, hl⟩ | ⟨p, hp, rfl⟩
    · exact ht.edge_cover l hl l' hl' he
    · have he : p.group.merged = l'.target := he
      exact h.merged_not_mem hp (he ▸ (h.sound.cover_ends l' hl').2)
  · rcases h.mem_edges.mp hl with ⟨hs, -, hl⟩ | ⟨p, hp, rfl⟩
    · rcases h.branchesTo_old (h.sound.edge_ends l hl).2 hab with hab | ⟨q, hq, br, hbr, htarget⟩
      · exact ht.edge_branch l hl a hab
      -- the edge is the one by which the branch went on, so it has gone with it
      · have hedge := ht.edge l hl _ (Table.mem_of_get? (h.edge_of_branch hq hbr)) htarget.symm
        exact hs (hedge ▸ h.absorbed_node hq hbr)
    · rcases (h.branchesTo a _).mp hab with ⟨-, -, hab⟩ | ⟨-, -, q, hq, he⟩ | ⟨q, hq, -, br, hbr, he⟩
      · exact h.merged_not_mem hp (h.sound.split_target a _ hab)
      · exact h.anchor_ne_merged hq hp he
      · have he : br.target = p.group.merged := he
        exact h.merged_not_mem hp (he ▸ h.target_mem hq hbr)
  · obtain ⟨-, -, hl⟩ := h.mem_covers.mp hl
    rcases h.branchesTo_old (h.sound.cover_ends l hl).2 hab with hab | ⟨q, hq, br, hbr, htarget⟩
    · exact ht.cover_branch l hl a hab
    · exact ht.edge_cover _ (Table.mem_of_get? (h.edge_of_branch hq hbr)) l hl htarget

end Reworked

end Graph

end StateGraph
