-- When a change is turned down: each fault in terms of what the tables hold.
import StateGraph.Graph.Update
import StateGraph.Proofs.SplitRelation

namespace StateGraph

namespace Graph

variable {g : Graph}

/-! ## Links at a node -/

theorem meets_source {s : NodeId} {l : Link} : meets (some s) none l = true ↔ l.source = s := by
  simp only [meets, Option.all_some, Option.all_none, Bool.and_true, beq_iff_eq]
  exact eq_comm

theorem mem_edgesWhere_source {s : NodeId} {l : Link} {steps : Chain} :
    (l, steps) ∈ g.edgesWhere (some s) none ↔ g.edges.get? l = some steps ∧ l.source = s := by
  simp only [edgesWhere, List.mem_filter, meets_source, Table.get?_eq_some]

theorem mem_coversWhere_source {s : NodeId} {l : Link} {e : Effect} :
    (l, e) ∈ g.coversWhere (some s) none ↔ g.covers.get? l = some e ∧ l.source = s := by
  simp only [coversWhere, List.mem_filter, meets_source, Table.get?_eq_some]

theorem edgesWhere_source_isEmpty {s : NodeId} :
    (g.edgesWhere (some s) none).isEmpty = true ↔ ∀ l ∈ g.edges, l.source ≠ s := by
  simp only [List.isEmpty_iff, List.eq_nil_iff_forall_not_mem, Prod.forall, mem_edgesWhere_source,
    Table.mem_iff, not_and, forall_exists_index]

theorem coversWhere_source_isEmpty {s : NodeId} :
    (g.coversWhere (some s) none).isEmpty = true ↔ ∀ l ∈ g.covers, l.source ≠ s := by
  simp only [List.isEmpty_iff, List.eq_nil_iff_forall_not_mem, Prod.forall, mem_coversWhere_source,
    Table.mem_iff, not_and, forall_exists_index]

theorem mem_splitSourcesOf {a t : NodeId} :
    a ∈ g.splitSourcesOf t ↔ BranchesTo g.splits a t := by
  simp only [splitSourcesOf, splitsWhere, List.mem_map, List.mem_filter, Option.all_none,
    Option.all_some, Bool.true_and, Prod.exists, exists_and_right, exists_eq_right, BranchesTo,
    Table.get?_eq_some]
  exact Iff.rfl

/-! ## Faults -/

theorem faultIf_eq_none {p : Bool} {e : Error} : faultIf p e = none ↔ p = false := by
  unfold faultIf
  split <;> simp_all

theorem referenceFault_eq_none {context : String} {id : NodeId} :
    g.referenceFault context id = none ↔ id ∈ g.nodes := by
  unfold referenceFault
  rw [faultIf_eq_none, Bool.not_eq_false']
  exact Iff.rfl

theorem takenFault_eq_none {t : NodeId} :
    g.takenFault t = none ↔ ∀ a, ¬ BranchesTo g.splits a t := by
  unfold takenFault
  rw [Option.map_eq_none_iff, List.head?_eq_none_iff, List.eq_nil_iff_forall_not_mem]
  simp only [mem_splitSourcesOf]

theorem edgeFault_eq_none {l : Link} {steps : Chain} :
    g.edgeFault l steps = none ↔ l.source ∈ g.nodes ∧ l.target ∈ g.nodes ∧ steps ≠ [] ∧
      l.source ∉ g.splits ∧ l ∉ g.edges := by
  unfold edgeFault
  simp only [Option.orElse_eq_orElse, Option.orElse_eq_or, Option.or_eq_none_iff,
    referenceFault_eq_none, faultIf_eq_none,
    Table.contains_eq_false, List.isEmpty_eq_false_iff]

theorem coverFault_eq_none {l : Link} :
    g.coverFault l = none ↔ l.source ∈ g.nodes ∧ l.target ∈ g.nodes ∧
      l.source ∉ g.splits ∧ l ∉ g.covers := by
  unfold coverFault
  simp only [Option.orElse_eq_orElse, Option.orElse_eq_or, Option.or_eq_none_iff,
    referenceFault_eq_none, faultIf_eq_none,
    Table.contains_eq_false]

/-- A split is legal if all its ends are there, it has branches, nothing else
leads out of its source, its targets are free unless they may be shared, and
none of them leads back. -/
structure Splittable (g : Graph) (source : NodeId) (cases : Cases) (sharing : Bool) : Prop where
  source_mem : source ∈ g.nodes
  targets_mem : ∀ t ∈ cases.guards, t ∈ g.nodes
  branches : ∃ t, t ∈ cases.guards
  no_split : source ∉ g.splits
  no_edge : ∀ l ∈ g.edges, l.source ≠ source
  no_cover : ∀ l ∈ g.covers, l.source ≠ source
  not_self : source ∉ cases.guards
  free : sharing = false → ∀ t ∈ cases.guards, ∀ a, ¬ BranchesTo g.splits a t
  no_way_back : g.splitsLeadTo cases.targets source = false

theorem splitFault_eq_none {source : NodeId} {cases : Cases} {sharing : Bool} :
    g.splitFault source cases sharing = none ↔ g.Splittable source cases sharing := by
  have hbranches : cases.guards.isEmpty = false ↔ ∃ t, t ∈ cases.guards := by
    rw [← Bool.not_eq_true, Table.isEmpty_iff]
    push Not
    exact Iff.rfl
  have hlinks : (!(g.edgesWhere (some source) none).isEmpty ||
      !(g.coversWhere (some source) none).isEmpty) = false ↔
      (∀ l ∈ g.edges, l.source ≠ source) ∧ ∀ l ∈ g.covers, l.source ≠ source := by
    rw [Bool.or_eq_false_iff, Bool.not_eq_false', Bool.not_eq_false', edgesWhere_source_isEmpty,
      coversWhere_source_isEmpty]
  have hfree : (if sharing then none else cases.targets.findSome? g.takenFault) = none ↔
      (sharing = false → ∀ t ∈ cases.guards, ∀ a, ¬ BranchesTo g.splits a t) := by
    cases sharing <;>
      simp [List.findSome?_eq_none_iff, takenFault_eq_none, Cases.targets, Table.mem_keys]
  unfold splitFault
  simp only [Option.orElse_eq_orElse, Option.orElse_eq_or, Option.or_eq_none_iff,
    referenceFault_eq_none, faultIf_eq_none, hbranches, hlinks,
    Table.contains_eq_false, List.findSome?_eq_none_iff, Cases.targets, Table.mem_keys]
  constructor
  · rintro ⟨h1, h2, h3, h4, ⟨h5, h6⟩, h7, h8, h9⟩
    exact ⟨h1, h2, h3, h4, h5, h6, h7, hfree.mp h8, h9⟩
  · rintro ⟨h1, h2, h3, h4, h5, h6, h7, h8, h9⟩
    exact ⟨h1, h2, h3, h4, ⟨h5, h6⟩, h7, hfree.mpr h8, h9⟩

end Graph

end StateGraph
