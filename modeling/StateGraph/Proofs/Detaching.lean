-- Graphs without some of their nodes: what merging leaves of a split once the
-- members of its cliques are gone.
import StateGraph.Proofs.Runs

namespace StateGraph

namespace Graph

variable {g : Graph} {ids : List NodeId}

/-- The graph without some nodes and whatever touches them. -/
def withoutAll (g : Graph) (ids : List NodeId) : Graph := ids.foldl without g

theorem withoutAll_cons (g : Graph) (id : NodeId) (ids : List NodeId) :
    g.withoutAll (id :: ids) = (g.without id).withoutAll ids := rfl

theorem Sound.withoutAll (h : Sound g) (ids : List NodeId) : Sound (g.withoutAll ids) := by
  induction ids generalizing g with
  | nil => exact h
  | cons id ids ih => exact ih (h.without id)

theorem grows_withoutAll (g : Graph) (ids : List NodeId) : Grows g (g.withoutAll ids) := by
  induction ids generalizing g with
  | nil => exact .refl g
  | cons id ids ih => exact (grows_without g id).trans (ih _)

theorem next_withoutAll (g : Graph) (ids : List NodeId) : (g.withoutAll ids).next = g.next := by
  induction ids generalizing g with
  | nil => rfl
  | cons id ids ih => exact ih _

theorem get?_nodes_withoutAll {x : NodeId} :
    (g.withoutAll ids).nodes.get? x = if x ∈ ids then none else g.nodes.get? x := by
  induction ids generalizing g with
  | nil => simp [withoutAll]
  | cons id ids ih =>
    rw [withoutAll_cons, ih]
    have hget : (g.without id).nodes.get? x = if x = id then none else g.nodes.get? x :=
      Table.get?_erase
    rw [hget]
    by_cases hx : x = id <;> simp [hx]

theorem mem_nodes_withoutAll {x : NodeId} :
    x ∈ (g.withoutAll ids).nodes ↔ x ∉ ids ∧ x ∈ g.nodes := by
  rw [Table.mem_iff, get?_nodes_withoutAll, Table.mem_iff]
  by_cases hx : x ∈ ids <;> simp [hx]

/-- The links that touch none of some nodes. -/
def linksWithout {ν : Type} (links : Table Link ν) (ids : List NodeId) : Table Link ν :=
  ids.foldl (fun t id => t.filter fun l _ => l.source != id && l.target != id) links

theorem get?_linksWithout {ν : Type} {links : Table Link ν} {l : Link} :
    (linksWithout links ids).get? l =
      if l.source ∈ ids ∨ l.target ∈ ids then none else links.get? l := by
  induction ids generalizing links with
  | nil => simp [linksWithout]
  | cons id ids ih =>
    unfold linksWithout at ih ⊢
    rw [List.foldl_cons, ih, get?_filter_ends]
    by_cases hs : l.source = id <;> by_cases ht : l.target = id <;> simp [hs, ht]

theorem linksWithout_eq_some {ν : Type} {links : Table Link ν} {l : Link} {v : ν} :
    (linksWithout links ids).get? l = some v ↔
      l.source ∉ ids ∧ l.target ∉ ids ∧ links.get? l = some v := by
  rw [get?_linksWithout, ← and_assoc, ← not_or]
  by_cases h : l.source ∈ ids ∨ l.target ∈ ids <;> simp [h]

theorem mem_linksWithout {ν : Type} {links : Table Link ν} {l : Link} :
    l ∈ linksWithout links ids ↔ l.source ∉ ids ∧ l.target ∉ ids ∧ l ∈ links := by
  simp only [Table.mem_iff, linksWithout_eq_some, exists_and_left]

theorem edges_withoutAll (g : Graph) (ids : List NodeId) :
    (g.withoutAll ids).edges = linksWithout g.edges ids := by
  induction ids generalizing g with
  | nil => rfl
  | cons id ids ih => exact ih (g.without id)

theorem covers_withoutAll (g : Graph) (ids : List NodeId) :
    (g.withoutAll ids).covers = linksWithout g.covers ids := by
  induction ids generalizing g with
  | nil => rfl
  | cons id ids ih => exact ih (g.without id)

theorem branchesTo_withoutAll {a b : NodeId} :
    BranchesTo (g.withoutAll ids).splits a b ↔ a ∉ ids ∧ b ∉ ids ∧ BranchesTo g.splits a b := by
  induction ids generalizing g with
  | nil => simp [withoutAll]
  | cons id ids ih =>
    rw [withoutAll_cons, ih]
    have hone : BranchesTo (g.without id).splits a b ↔ _ := branchesTo_without
    rw [hone, List.mem_cons, List.mem_cons]
    tauto

/-- A split all of whose branches are gone is gone. -/
theorem not_mem_splits_withoutAll (h : Sound g) {s : NodeId}
    (hall : ∀ t, BranchesTo g.splits s t → t ∈ ids) : s ∉ (g.withoutAll ids).splits := by
  -- a split that stood would still have a branch
  intro hs
  obtain ⟨t, ht⟩ := (h.withoutAll ids).split_branch s hs
  obtain ⟨-, ht, hst⟩ := branchesTo_withoutAll.mp ht
  exact ht (hall t hst)

theorem get?_splitsWithout {id s : NodeId} (h : Sound g) (hs : s ≠ id)
    (hid : ¬ BranchesTo g.splits s id) : (g.splitsWithout id).get? s = g.splits.get? s := by
  have hkept : ∀ cases, g.splits.get? s = some cases →
      { cases with guards := cases.guards.erase id } = cases := by
    intro cases hcases
    have hno : id ∉ cases.guards := fun hm => hid ⟨cases, hcases, hm⟩
    rw [Table.erase_of_not_mem hno]
  refine Option.ext fun left => ?_
  rw [get?_splitsWithout_eq_some]
  constructor
  · rintro ⟨-, -, cases, hcases, rfl⟩
    rw [hkept cases hcases, hcases]
  · intro hleft
    obtain ⟨t, cases, hcases, ht⟩ := h.split_branch s (Table.mem_of_get? hleft)
    obtain rfl : left = cases := Option.some.inj (hleft.symm.trans hcases)
    exact ⟨hs, ⟨t, ht⟩, left, hleft, (hkept left hleft).symm⟩

/-- A split that touches none of the nodes stays as it is. -/
theorem get?_splits_withoutAll (h : Sound g) {s : NodeId} (hs : s ∉ ids)
    (hids : ∀ t ∈ ids, ¬ BranchesTo g.splits s t) :
    (g.withoutAll ids).splits.get? s = g.splits.get? s := by
  induction ids generalizing g with
  | nil => rfl
  | cons id ids ih =>
    obtain ⟨hne, hs⟩ := not_or.mp (List.mem_cons.not.mp hs)
    rw [withoutAll_cons, ih (h.without id) hs fun t ht hst =>
      hids t (List.mem_cons_of_mem _ ht) (branchesTo_without.mp hst).2.2]
    exact get?_splitsWithout h hne (hids id List.mem_cons_self)

end Graph

namespace Update

/-- Nodes that are there, each named once, can all be detached. -/
theorem detachAll_run {ids : List NodeId} {g : Graph} (hnd : ids.Nodup)
    (hmem : ∀ id ∈ ids, id ∈ g.nodes) :
    (ids.forM fun m => discard (detachNode m)).run g = .ok () (g.withoutAll ids) := by
  induction ids generalizing g with
  | nil => rfl
  | cons id ids ih =>
    obtain ⟨hid, hnd⟩ := List.nodup_cons.mp hnd
    obtain ⟨c, hc⟩ := Table.mem_iff.mp (hmem id List.mem_cons_self)
    have hdetach : (discard (detachNode id)).run g = .ok () (g.without id) := by
      rw [discard_run, detachNode_run, hc]
    have hrest := ih (g := g.without id) hnd fun x hx =>
      Graph.mem_nodes_without.mpr ⟨fun he => hid (he ▸ hx), hmem x (List.mem_cons_of_mem _ hx)⟩
    change ((discard (detachNode id)) >>= fun _ => ids.forM fun m => discard (detachNode m)).run g = _
    rw [EStateM.run_bind, hdetach]
    exact hrest

end Update

end StateGraph
