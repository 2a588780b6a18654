-- Walks through a graph. The search from a node finds exactly the nodes that a walk
-- over edges, covers and splits leads to.
import StateGraph.Proofs.Soundness

namespace StateGraph

open Relation (ReflTransGen)

namespace Graph

variable {g g' : Graph}

/-- An edge, a cover or a split leads from a node to another. -/
def Leads (g : Graph) (a b : NodeId) : Prop :=
  ⟨a, b⟩ ∈ g.edges ∨ ⟨a, b⟩ ∈ g.covers ∨ BranchesTo g.splits a b

/-- The search from a node finds another. -/
def reaches (g : Graph) (start goal : NodeId) : Bool :=
  match g.reachable start with
  | .ok met => met.contains goal
  | .error _ => false

/-! ## One step -/

theorem mem_dedup {xs out : List NodeId} {y : NodeId} :
    y ∈ xs.foldl (fun out t => if t ∈ out then out else out ++ [t]) out ↔ y ∈ out ∨ y ∈ xs := by
  induction xs generalizing out with
  | nil => simp
  | cons x xs ih =>
    rw [List.foldl_cons, ih, List.mem_cons]
    split
    · rename_i hx
      refine ⟨fun h => h.imp_right Or.inr, ?_⟩
      rintro (h | rfl | h)
      · exact Or.inl h
      · exact Or.inl hx
      · exact Or.inr h
    · rw [List.mem_append, List.mem_singleton, or_assoc]

theorem exists_link_from {ν : Type} {links : Table Link ν} {a b : NodeId} :
    b ∈ (links.toList.filter fun e => meets (some a) none e.1).map (·.1.target) ↔
      ⟨a, b⟩ ∈ links := by
  simp only [List.mem_map, List.mem_filter, meets_source, Prod.exists, Table.mem_iff,
    Table.get?_eq_some]
  constructor
  · rintro ⟨⟨_, _⟩, v, ⟨hmem, rfl⟩, rfl⟩
    exact ⟨v, hmem⟩
  · rintro ⟨v, hmem⟩
    exact ⟨⟨a, b⟩, v, ⟨hmem, rfl⟩, rfl⟩

theorem mem_successors {a b : NodeId} : b ∈ g.successors a ↔ g.Leads a b := by
  have hedge : b ∈ (g.edgesWhere (some a) none).map (·.1.target) ↔ ⟨a, b⟩ ∈ g.edges :=
    exists_link_from
  have hcover : b ∈ (g.coversWhere (some a) none).map (·.1.target) ↔ ⟨a, b⟩ ∈ g.covers :=
    exists_link_from
  unfold successors
  simp only [mem_dedup, List.mem_append, hedge, hcover, mem_splitTargets, List.not_mem_nil,
    false_or, or_assoc]
  exact Iff.rfl

theorem Leads.mem_nodes (h : Sound g) {a b : NodeId} (hab : g.Leads a b) :
    a ∈ g.nodes ∧ b ∈ g.nodes := by
  rcases hab with hab | hab | hab
  · exact h.edge_ends _ hab
  · exact h.cover_ends _ hab
  · obtain ⟨c, hc, -⟩ := id hab
    exact ⟨h.split_source a (Table.mem_of_get? hc), h.split_target a b hab⟩

theorem Reconfigured.leads (h : Reconfigured g g') : g'.Leads = g.Leads := by
  unfold Leads
  rw [h.edges_eq, h.covers_eq, h.splits_eq]

/-! ## Whole walks -/

/-- Once the search may take as many nodes as links let wait, it ends because nothing
waits any more. -/
theorem searches_successors (h : Sound g) {a : NodeId} {steps : Nat} (ha : a ∈ g.nodes)
    (hsteps : searchSteps g.successors g.nodes.keys [a] ≤ steps) :
    Searches (enqueue g.successors) [a] ∅ (search (enqueue g.successors) steps [a] ∅) := by
  have hclosed : ∀ x ∈ g.nodes.keys, ∀ y ∈ g.successors x, y ∈ g.nodes.keys :=
    fun x _ y hy => Table.mem_keys.mpr ((mem_successors.mp hy).mem_nodes h).2
  have hstart : ∀ x ∈ [a], x ∈ g.nodes.keys := by
    intro x hx
    obtain rfl := List.mem_singleton.mp hx
    exact Table.mem_keys.mpr ha
  exact (pushes_enqueue g.successors).searches hclosed (enough_start hstart hsteps)

/-- It follows every walk, and further steps find nothing more. -/
theorem mem_search_successors (h : Sound g) {a b : NodeId} {steps : Nat} (ha : a ∈ g.nodes)
    (hsteps : searchSteps g.successors g.nodes.keys [a] ≤ steps) :
    b ∈ search (enqueue g.successors) steps [a] ∅ ↔ ReflTransGen g.Leads a b := by
  have hsucc : (fun x y => y ∈ g.successors x) = g.Leads := by
    funext x y
    exact propext mem_successors
  rw [(searches_successors h ha hsteps).mem_iff (pushes_enqueue g.successors), hsucc]
  simp only [List.mem_singleton, exists_eq_left]

theorem reaches_iff (h : Sound g) {a b : NodeId} :
    g.reaches a b = true ↔ a ∈ g.nodes ∧ ReflTransGen g.Leads a b := by
  unfold reaches reachable config
  cases ha : g.nodes.get? a with
  | none =>
    refine ⟨fun hb => (by cases hb), fun hb => ?_⟩
    exact absurd hb.1 (Table.not_mem_iff.mpr ha)
  | some c =>
    have ha := Table.mem_of_get? ha
    exact (mem_search_successors h ha (Nat.le_refl _)).trans (and_iff_right ha).symm

/-! ## Leaves -/

theorem mem_leaves {x : NodeId} : x ∈ g.leaves ↔ x ∈ g.nodes ∧ ∀ b, ¬ g.Leads x b := by
  unfold leaves
  rw [List.mem_filter, Table.mem_keys, List.isEmpty_iff, List.eq_nil_iff_forall_not_mem]
  simp only [mem_successors]

theorem leaves_ascending (g : Graph) : g.leaves.Pairwise (· < ·) :=
  (g.nodes.keys_ascending.imp Nat.compare_eq_lt.mp).filter _

/-- Leaves are told by which nodes they are, since they come in order. -/
theorem leaves_eq (h : ∀ x, x ∈ g'.leaves ↔ x ∈ g.leaves) : g'.leaves = g.leaves := by
  have hnodup : ∀ g : Graph, g.leaves.Nodup := fun g => g.leaves_ascending.imp Nat.ne_of_lt
  refine List.Perm.eq_of_pairwise ?_ g'.leaves_ascending g.leaves_ascending
    ((List.perm_ext_iff_of_nodup (hnodup g') (hnodup g)).mpr h)
  intro a b _ _ hab hba
  exact absurd hba (Nat.lt_asymm hab)

end Graph

end StateGraph
