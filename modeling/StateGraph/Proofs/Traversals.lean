-- The views of a graph agree. What comes right after a node and what comes right before
-- one are read off different tables, yet they are the two ends of the same links. Leaves
-- are the nodes that come before no other, and a search from a node ends with exactly the
-- nodes that links lead to.
import StateGraph.Proofs.Failures
import StateGraph.Proofs.Walks

namespace StateGraph

open Relation (ReflTransGen)

namespace Graph

variable {g : Graph}

/-! ## Neighbours -/

theorem meets_target {t : NodeId} {l : Link} : meets none (some t) l = true ↔ l.target = t := by
  simp only [meets, Option.all_some, Option.all_none, Bool.true_and, beq_iff_eq]
  exact eq_comm

theorem exists_link_to {ν : Type} {links : Table Link ν} {a b : NodeId} :
    a ∈ (links.toList.filter fun e => meets none (some b) e.1).map (·.1.source) ↔
      ⟨a, b⟩ ∈ links := by
  simp only [List.mem_map, List.mem_filter, meets_target, Prod.exists, Table.mem_iff,
    Table.get?_eq_some]
  constructor
  · rintro ⟨⟨_, _⟩, v, ⟨hmem, rfl⟩, rfl⟩
    exact ⟨v, hmem⟩
  · rintro ⟨v, hmem⟩
    exact ⟨⟨a, b⟩, v, ⟨hmem, rfl⟩, rfl⟩

theorem mem_predecessors {a b : NodeId} : a ∈ g.predecessors b ↔ g.Leads a b := by
  have hedge : a ∈ (g.edgesWhere none (some b)).map (·.1.source) ↔ ⟨a, b⟩ ∈ g.edges :=
    exists_link_to
  have hcover : a ∈ (g.coversWhere none (some b)).map (·.1.source) ↔ ⟨a, b⟩ ∈ g.covers :=
    exists_link_to
  unfold predecessors
  simp only [Table.mem_keys, SortedSet.mem_ofList, List.mem_append, hedge, hcover,
    mem_splitSourcesOf, or_assoc]
  exact Iff.rfl

/-- A list that takes in only what it does not have yet has nothing twice. -/
theorem nodup_dedup {xs out : List NodeId} (h : out.Nodup) :
    (xs.foldl (fun out t => if t ∈ out then out else out ++ [t]) out).Nodup := by
  induction xs generalizing out with
  | nil => exact h
  | cons x xs ih =>
    rw [List.foldl_cons]
    apply ih
    by_cases hx : x ∈ out
    · simpa [hx] using h
    · rw [if_neg hx, List.nodup_append_comm]
      exact List.nodup_cons.mpr ⟨hx, h⟩

theorem successors_nodup (g : Graph) (a : NodeId) : (g.successors a).Nodup :=
  nodup_dedup List.nodup_nil

theorem predecessors_nodup (g : Graph) (b : NodeId) : (g.predecessors b).Nodup :=
  Table.keys_nodup _

/-- A leaf comes right before no node. -/
theorem mem_leaves_iff (h : Sound g) {a : NodeId} :
    a ∈ g.leaves ↔ a ∈ g.nodes ∧ ∀ b ∈ g.nodes, a ∉ g.predecessors b := by
  rw [mem_leaves]
  refine and_congr_right fun _ => forall_congr' fun b => ?_
  rw [mem_predecessors]
  exact ⟨fun hno _ => hno, fun hno hab => hno (hab.mem_nodes h).2 hab⟩

/-! ## Searches -/

theorem reachable_of_mem {a : NodeId} (ha : a ∈ g.nodes) :
    g.reachable a = .ok (search (enqueue g.successors)
      (searchSteps g.successors g.nodes.keys [a]) [a] ∅) := by
  obtain ⟨c, hc⟩ := Table.mem_iff.mp ha
  simp only [reachable, config, hc]
  rfl

theorem reachable_of_not_mem {a : NodeId} (ha : a ∉ g.nodes) :
    g.reachable a = .error (.notFound (.node a)) := by
  simp only [reachable, config, Table.not_mem_iff.mp ha]
  rfl

/-- The search from a node ends because nothing waits any more, not because it has used up
its steps. -/
theorem searches_of_reachable (h : Sound g) {a : NodeId} {met : SortedSet NodeId}
    (hrun : g.reachable a = .ok met) : Searches (enqueue g.successors) [a] ∅ met := by
  by_cases ha : a ∈ g.nodes
  · rw [reachable_of_mem ha] at hrun
    cases hrun
    exact searches_successors h ha (Nat.le_refl _)
  · rw [reachable_of_not_mem ha] at hrun
    cases hrun

/-- Where links lead from a node there are nodes only. -/
theorem mem_nodes_of_walk (h : Sound g) {a b : NodeId} (ha : a ∈ g.nodes)
    (hab : ReflTransGen g.Leads a b) : b ∈ g.nodes := by
  cases hab with
  | refl => exact ha
  | tail _ hlast => exact (hlast.mem_nodes h).2

end Graph

open StateGraph.Graph

/-- Successors, predecessors, leaves and searches all tell of the same links. The search
from a node has ended by itself: however many more steps it may take, it finds the same
nodes. See `searches_of_reachable` for the search without a number of steps. -/
theorem Reachable.traversals_agree {g : Graph} (h : Reachable g) :
    (∀ a b, (b ∈ g.successors a ↔ a ∈ g.predecessors b) ∧ (b ∈ g.successors a ↔ g.Leads a b)) ∧
      (∀ a, (g.successors a).Nodup ∧ (g.predecessors a).Nodup) ∧
      g.leaves.Pairwise (· < ·) ∧
      (∀ a, a ∈ g.leaves ↔ a ∈ g.nodes ∧ ∀ b ∈ g.nodes, a ∉ g.predecessors b) ∧
      (∀ u ∈ g.nodes, ∃ met, g.reachable u = .ok met ∧
        (∀ v, v ∈ met ↔ ReflTransGen g.Leads u v) ∧ (∀ v ∈ met, v ∈ g.nodes) ∧
        ∀ steps, searchSteps g.successors g.nodes.keys [u] ≤ steps →
          search (enqueue g.successors) steps [u] ∅ = met) ∧
      ∀ u, u ∉ g.nodes → g.reachable u = .error (.notFound (.node u)) := by
  have hsound := h.sound
  refine ⟨fun a b => ⟨?_, mem_successors⟩, fun a => ⟨g.successors_nodup a, g.predecessors_nodup a⟩,
    g.leaves_ascending, fun a => mem_leaves_iff hsound, fun u hu => ?_,
    fun u => reachable_of_not_mem⟩
  · rw [mem_successors, mem_predecessors]
  · have hmet : ∀ {steps}, searchSteps g.successors g.nodes.keys [u] ≤ steps → ∀ v,
        v ∈ search (enqueue g.successors) steps [u] ∅ ↔ ReflTransGen g.Leads u v :=
      fun hsteps v => mem_search_successors hsound hu hsteps
    have hown := hmet (Nat.le_refl _)
    refine ⟨_, reachable_of_mem hu, hown, fun v hv => ?_, fun steps hsteps => ?_⟩
    · exact mem_nodes_of_walk hsound hu ((hown v).mp hv)
    · apply SortedSet.ext_mem
      intro v
      rw [hown, hmet hsteps]

/-- Calls that make an edge from a node to itself, a cycle of an edge and a cover, a split
that leads out of it, and a node on its own. -/
def loops : List Call :=
  (["A", "B", "C", "D", "E"].map fun x => .addNode { term := .var x }) ++
    [.createEdge 1 1 [.guard .top], .createEdge 1 2 [.guard .top], .createEdge 1 3 [.guard .top],
      .createCover 2 1 .top, .createSplit 3 { guards := .ofList [(4, .top)] }]

theorem traversals_agree_loops :
    let g := Graph.empty.afterAll loops
    Reachable g ∧ g.successors 1 = [1, 2, 3] ∧ 2 ∈ g.predecessors 1 ∧
      (∀ b ∈ g.nodes, 4 ∉ g.predecessors b) ∧
      ∃ met, g.reachable 2 = .ok met ∧ ReflTransGen g.Leads 2 4 ∧ ¬ ReflTransGen g.Leads 2 5 ∧
        g.reachable 6 = .error (.notFound (.node 6)) := by
  intro g
  have hreachable : Reachable g := ⟨.empty, loops, .empty, rfl⟩
  obtain ⟨hneighbours, -, -, hleaves, hsearch, hmissing⟩ := hreachable.traversals_agree
  obtain ⟨met, hrun, hmet, -, hsteps⟩ := hsearch 2 (by decide +kernel)
  have hfound : 4 ∈ met ∧ 5 ∉ met := by
    rw [← hsteps _ (Nat.le_refl _)]
    decide +kernel
  refine ⟨hreachable, by decide +kernel, (hneighbours 2 1).1.mp (by decide +kernel),
    ((hleaves 4).mp (by decide +kernel)).2, met, hrun, (hmet 4).mp hfound.1, ?_,
    hmissing 6 (by decide +kernel)⟩
  exact fun hwalk => hfound.2 ((hmet 5).mpr hwalk)

end StateGraph
