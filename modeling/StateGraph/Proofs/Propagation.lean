-- Path conditions can always be brought up to date in a sound graph, and only
-- configurations change by it. So no change that does so fails half way.
import StateGraph.Proofs.PathConditions

namespace StateGraph

open StateGraph.Graph (Sound Reconfigured Grows)

namespace Update

/-- In a sound graph path conditions are brought up to date without fail. -/
theorem propagate_run {g : Graph} (h : Sound g) :
    ∃ n g', propagate.run g = .ok n g' ∧ Reconfigured g g' := by
  obtain ⟨n, g', hrun, hsettles, -⟩ := propagate_settles h
  exact ⟨n, g', hrun, hsettles.toReconfigured⟩

theorem settled_run {α : Type} {g : Graph} (h : Sound g) (a : α) :
    ∃ g', settled a g = .ok a g' ∧ Reconfigured g g' := by
  obtain ⟨n, g', hrun, hg'⟩ := propagate_run h
  exact ⟨g', by simp only [settled, hrun], hg'⟩

/-! ## All changes are safe -/

variable {g : Graph}

theorem addNode_safe (h : Sound g) (c : Config) : Safe g ((addNode c).run g) :=
  ⟨h.withNode c, Graph.grows_withNode g c⟩

theorem replaceConfig_safe (h : Sound g) (id : NodeId) (c : Config) :
    Safe g ((replaceConfig id c).run g) := by
  rw [replaceConfig_run]
  split
  · rename_i hid
    have hg := Graph.reconfigured_insert (Table.mem_of_get? hid) c
    exact ⟨h.reconfigured hg, hg.grows⟩
  · rfl

theorem createEdge_safe (h : Sound g) (s t : NodeId) (steps : Chain) :
    Safe g ((createEdge s t steps).run g) := by
  rw [createEdge_run]
  split
  · rfl
  · rename_i hfault
    exact ⟨h.insert_edge hfault, Graph.grows_of_subset rfl fun _ hid => hid⟩

theorem removeEdge_safe (h : Sound g) (s t : NodeId) : Safe g ((removeEdge s t).run g) := by
  rw [removeEdge_run]
  split
  · exact ⟨h.erase_edge _, Graph.grows_of_subset rfl fun _ hid => hid⟩
  · rfl

theorem createCover_safe (h : Sound g) (s t : NodeId) (e : Effect) :
    Safe g ((createCover s t e).run g) := by
  rw [createCover_run]
  split
  · rfl
  · rename_i hfault
    exact ⟨h.insert_cover hfault, Graph.grows_of_subset rfl fun _ hid => hid⟩

theorem removeCover_safe (h : Sound g) (s t : NodeId) : Safe g ((removeCover s t).run g) := by
  rw [removeCover_run]
  split
  · exact ⟨h.erase_cover _, Graph.grows_of_subset rfl fun _ hid => hid⟩
  · rfl

theorem propagate_safe (h : Sound g) : Safe g (propagate.run g) := by
  obtain ⟨n, g', hrun, hg'⟩ := propagate_run h
  rw [hrun]
  exact ⟨h.reconfigured hg', hg'.grows⟩

theorem settled_safe {α : Type} {g' : Graph} (hg : Grows g g') (h : Sound g') (a : α) :
    Safe g (settled a g') := by
  obtain ⟨g'', hrun, hg''⟩ := settled_run h a
  rw [hrun]
  exact ⟨h.reconfigured hg'', hg.trans hg''.grows⟩

theorem removeNode_safe (h : Sound g) (id : NodeId) : Safe g ((removeNode id).run g) := by
  rw [removeNode_run]
  split
  · split
    · exact settled_safe (Graph.grows_without g id) (h.without id) _
    · exact ⟨h.without id, Graph.grows_without g id⟩
  · rfl

theorem createSplit_safe (h : Sound g) (source : NodeId) (cases : Cases) :
    Safe g ((createSplit source cases).run g) := by
  rw [createSplit_run]
  split
  · rfl
  · rename_i hfault
    have hsound := h.insert_split (Graph.splitFault_eq_none.mp hfault)
    obtain ⟨n, g', hrun, hg'⟩ := propagate_run hsound
    have hcases : g'.splits.get? source = some cases := by
      rw [hg'.splits_eq]
      exact Table.get?_insert_self _ _ _
    rw [hrun]
    simp only [demand_run, hcases]
    exact ⟨hsound.reconfigured hg', Graph.grows_of_subset hg'.next_eq fun id => (hg'.mem_iff id).mp⟩

theorem removeSplit_safe (h : Sound g) (source : NodeId) :
    Safe g ((removeSplit source).run g) := by
  rw [removeSplit_run]
  split
  · have hg : Grows g { g with splits := g.splits.erase source } :=
      Graph.grows_of_subset rfl fun _ hid => hid
    exact settled_safe hg (h.erase_split source) _
  · rfl

end Update

end StateGraph
