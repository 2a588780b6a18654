-- Path conditions stay in step with the splits. A call that puts no configuration
-- into a node leaves them so, and so does merging that ends well: whatever changes
-- the splits brings them up to date before it ends.
import StateGraph.Proofs.Failures

namespace StateGraph

open StateGraph.Graph (Sound InStep)

variable {g : Graph}

/-! ## Bringing path conditions up to date -/

/-- Propagation solves the equations of the path conditions. It never fails, its
result is the one solution, it counts the nodes whose condition is new, and once
more it changes nothing. -/
theorem Reachable.propagation_solves (h : Reachable g) :
    ∃ n g', Update.propagate.run g = .ok n g' ∧ g.Settles g' ∧ (∀ g'', g.Settles g'' → g'' = g') ∧
      n = g.changes g' ∧ Update.propagate.run g' = .ok 0 g' := by
  obtain ⟨n, g', hrun, hsettles, hcount⟩ := Update.propagate_settles h.sound
  refine ⟨n, g', hrun, hsettles, fun g'' hg'' => hsettles.unique h.sound hg'', hcount, ?_⟩
  exact Update.propagate_of_inStep (h.sound.reconfigured hsettles.toReconfigured) hsettles.inStep

/-- Calls that make a split below a split, and then give the topmost node another
path condition. -/
def drift : List Call :=
  (["A", "B", "C", "D", "E"].map fun x => .addNode { term := .var x }) ++
    [.createSplit 1 { guards := .ofList [(2, .assume [.var "P"]), (3, .assume [.var "Q"])] },
      .createSplit 2 { guards := .ofList [(4, .assume [.var "S"]), (5, .top)] },
      .replaceConfig 1 { term := .var "A", constraints := [.var "T"] }]

theorem propagation_solves_drift :
    let g := Graph.empty.afterAll drift
    ∃ g', Update.propagate.run g = .ok 4 g' ∧ g.Settles g' ∧ (∀ g'', g.Settles g'' → g'' = g') ∧
      g.changes g' = 4 ∧ Update.propagate.run g' = .ok 0 g' := by
  intro g
  have hreachable : Reachable g := ⟨.empty, drift, .empty, rfl⟩
  obtain ⟨n, g', hrun, hsettles, hunique, hcount, hagain⟩ := hreachable.propagation_solves
  obtain ⟨m, g₁, hrun₁, hm⟩ := exists_ok_of_endsWith (p := fun n : Nat => n == 4)
    (r := Update.propagate.run g) (by decide +kernel)
  obtain rfl : m = 4 := beq_iff_eq.mp hm
  rw [hrun₁] at hrun
  cases hrun
  exact ⟨g', hrun₁, hsettles, hunique, hcount.symm, hagain⟩

/-! ## Changes to a graph in step -/

namespace Graph

theorem InStep.withNode (hstep : g.InStep) (h : Sound g) (c : Config) : (g.withNode c).InStep := by
  have hold : ∀ {id}, id ∈ g.nodes → (g.withNode c).nodes.get? id = g.nodes.get? id := fun hid =>
    Table.get?_insert_of_ne _ fun he => h.next_not_mem (he ▸ hid)
  refine hstep.congr rfl fun s t hst => ⟨hold (h.split_source s ?_), hold (h.split_target s t hst)⟩
  obtain ⟨cases, hcases, -⟩ := hst
  exact Table.mem_of_get? hcases

/-- A node of no split goes without a trace in the splits. -/
theorem splitsWithout_eq (h : Sound g) {id : NodeId} (hno : g.inSomeSplit id = false) :
    g.splitsWithout id = g.splits := by
  obtain ⟨hsource, htarget⟩ := Bool.or_eq_false_iff.mp hno
  have hfree : ∀ a, ¬ BranchesTo g.splits a id := by
    rintro a ⟨cases, hcases, hid⟩
    exact List.any_eq_false.mp htarget (a, cases) (Table.get?_eq_some.mp hcases) hid
  refine Table.ext_get? fun s => ?_
  by_cases hs : s = id
  · have hgone : id ∉ g.splitsWithout id := fun hid => (mem_splits_of_without hid).1 rfl
    rw [hs, Table.not_mem_iff.mp hgone, Table.not_mem_iff.mp (Table.contains_eq_false.mp hsource)]
  · exact get?_splitsWithout h hs (hfree s)

theorem InStep.without (hstep : g.InStep) (h : Sound g) {id : NodeId}
    (hno : g.inSomeSplit id = false) : (g.without id).InStep := by
  have hsplits : (g.without id).splits = g.splits := splitsWithout_eq h hno
  refine hstep.congr hsplits fun s t hst => ?_
  rw [← hsplits] at hst
  obtain ⟨hs, ht, -⟩ := branchesTo_without.mp hst
  exact ⟨Table.get?_erase_of_ne hs, Table.get?_erase_of_ne ht⟩

end Graph

namespace Update

theorem inStep_settled {α : Type} (h : Sound g) (a : α) : (stateOf (settled a g)).InStep := by
  obtain ⟨n, g', hrun, hsettles, -⟩ := propagate_settles h
  simp only [settled, hrun]
  exact hsettles.inStep

theorem inStep_removeNode (h : Sound g) (hstep : g.InStep) (id : NodeId) :
    (stateOf ((removeNode id).run g)).InStep := by
  rw [removeNode_run]
  split
  · split
    · exact inStep_settled (h.without id) _
    · rename_i hno
      exact hstep.without h (Bool.not_eq_true _ ▸ hno)
  · exact hstep

theorem inStep_createSplit (h : Sound g) (hstep : g.InStep) (source : NodeId) (cases : Cases) :
    (stateOf ((createSplit source cases).run g)).InStep := by
  rw [createSplit_run]
  split
  · exact hstep
  · rename_i hfault
    obtain ⟨n, g', hrun, hsettles, -⟩ :=
      propagate_settles (h.insert_split (Graph.splitFault_eq_none.mp hfault))
    rw [hrun]
    simp only [demand_run]
    split <;> exact hsettles.inStep

theorem inStep_removeSplit (h : Sound g) (hstep : g.InStep) (source : NodeId) :
    (stateOf ((removeSplit source).run g)).InStep := by
  rw [removeSplit_run]
  split
  · exact inStep_settled (h.erase_split source) _
  · exact hstep

end Update

namespace Merging

variable {σ : Type} {oracle : Oracle σ} {s s' : Session σ}

/-- A round that ends well has brought path conditions up to date, or has changed
nothing. -/
theorem round_inStep {report : Report} {r : Report × Bool} (h : s.graph.Sound)
    (hstep : s.graph.InStep) (hrun : EStateM.run (round oracle report) s = .ok r s') :
    s'.graph.InStep := by
  have hends := round_ends oracle report s
  have hquiet := discover_all oracle s.graph.branchSets
  rw [hrun] at hends
  cases hends with
  | idle hfound _ =>
    rw [(hquiet.ok hfound).1]
    exact hstep
  | done hfound hcarried hsettled =>
    obtain ⟨hgraph, hplans⟩ := hquiet.ok hfound
    have hkeeps := carryOut_all oracle (hgraph ▸ h) fun p hp => (hplans p hp).2
    rw [hcarried] at hkeeps
    obtain ⟨g', hg', rfl⟩ := propagate_ok hkeeps.sound hsettled
    exact hg'.inStep

theorem rounds_inStep {limit : Nat} {report report' : Report} (h : s.graph.Sound)
    (hstep : s.graph.InStep) (hrun : EStateM.run (rounds oracle limit report) s = .ok report' s') :
    s'.graph.InStep := by
  induction limit generalizing s report with
  | zero =>
    cases hrun
    exact hstep
  | succ limit ih =>
    rw [rounds_succ] at hrun
    cases hround : EStateM.run (round oracle report) s with
    | error e s₁ =>
      rw [hround] at hrun
      cases hrun
    | ok r s₁ =>
      have hkeeps := round_keeps oracle report h
      have hstep₁ := round_inStep h hstep hround
      rw [hround] at hrun hkeeps
      obtain ⟨report₁, more⟩ := r
      cases more with
      | false =>
        cases hrun
        exact hstep₁
      | true => exact ih hkeeps.sound hstep₁ hrun

end Merging

/-! ## Histories -/

namespace Call

/-- The call puts no configuration into a node, and if it merges it ends well. -/
def orderly (c : Call) (g : Graph) : Bool :=
  match c with
  | replaceConfig .. => false
  | merge .. => !failed (c.update.run g)
  | _ => true

/-- An orderly call keeps path conditions in step, whether it fails or not. -/
theorem inStep_after (h : Sound g) (hstep : g.InStep) {c : Call} (hc : c.orderly g = true) :
    (c.after g).InStep := by
  have hlinks : ∀ {g' : Graph}, g'.splits = g.splits → g'.nodes = g.nodes → g'.InStep := by
    intro g' hsplits hnodes
    refine hstep.congr hsplits fun _ _ _ => ?_
    rw [hnodes]
    exact ⟨rfl, rfl⟩
  unfold after
  cases c with
  | addNode c =>
    rw [update, stateOf_discard, Update.addNode_run]
    exact hstep.withNode h c
  | replaceConfig id c => cases hc
  | removeNode id =>
    rw [update, stateOf_discard]
    exact Update.inStep_removeNode h hstep id
  | createEdge s t steps =>
    rw [update, Update.createEdge_run]
    split
    · exact hstep
    · exact hlinks rfl rfl
  | removeEdge s t =>
    rw [update, stateOf_discard, Update.removeEdge_run]
    split
    · exact hlinks rfl rfl
    · exact hstep
  | createCover s t e =>
    rw [update, Update.createCover_run]
    split
    · exact hstep
    · exact hlinks rfl rfl
  | removeCover s t =>
    rw [update, stateOf_discard, Update.removeCover_run]
    split
    · exact hlinks rfl rfl
    · exact hstep
  | createSplit s cases =>
    rw [update, stateOf_discard]
    exact Update.inStep_createSplit h hstep s cases
  | removeSplit s =>
    rw [update, stateOf_discard]
    exact Update.inStep_removeSplit h hstep s
  | propagate =>
    obtain ⟨n, g', hrun, hsettles, -⟩ := Update.propagate_settles h
    rw [update, stateOf_discard, hrun]
    exact hsettles.inStep
  | merge oracle memory limit =>
    rw [orderly, update, Update.discard_run, Update.mergeWith_run] at hc
    rw [update, stateOf_discard, Update.mergeWith_run]
    cases hrun : EStateM.run (Merging.run oracle limit) { graph := g, memory := memory } with
    | error e s =>
      rw [hrun] at hc
      cases hc
    | ok report s => exact Merging.rounds_inStep (s := { graph := g, memory := memory }) h hstep hrun

end Call

namespace Graph

/-- All calls are orderly, each on the graph that those before it leave. -/
def orderly (g : Graph) : List Call → Bool
  | [] => true
  | c :: calls => c.orderly g && (c.after g).orderly calls

theorem inStep_afterAll (h : Sound g) (hstep : g.InStep) {calls : List Call}
    (hcalls : g.orderly calls = true) :
    (g.afterAll calls).Sound ∧ (g.afterAll calls).InStep := by
  induction calls generalizing g with
  | nil => exact ⟨h, hstep⟩
  | cons c calls ih =>
    obtain ⟨hc, hcalls⟩ := Bool.and_eq_true_iff.mp hcalls
    exact ih (Call.sound_after h c).1 (c.inStep_after h hstep hc) hcalls

theorem inStep_empty : InStep .empty := by
  rintro s t ⟨⟨cases, hcases, -⟩, -⟩
  cases hcases

/-- Whatever orderly calls a graph has been through since it was empty, its path
conditions are in step with its splits, and there is nothing to bring up to date. -/
theorem orderly_history_in_step {calls : List Call} (hcalls : Graph.empty.orderly calls = true) :
    (Graph.empty.afterAll calls).InStep ∧ Update.propagate.run (Graph.empty.afterAll calls) =
      .ok 0 (Graph.empty.afterAll calls) := by
  obtain ⟨hsound, hstep⟩ := inStep_afterAll (sound_empty (Nat.le_refl 1)) inStep_empty hcalls
  exact ⟨hstep, Update.propagate_of_inStep hsound hstep⟩

end Graph

theorem orderly_history_in_step_drift :
    let calls : List Call := drift.dropLast ++
      [.addNode { term := .var "F" }, .addNode { term := .var "G" }, .createEdge 4 6 [.guard .top],
        .createEdge 5 7 [.guard .top], .merge Oracle.always () 64, .createEdge 2 3 [], .removeNode 3]
    Graph.empty.orderly calls = true ∧
      (Graph.empty.afterAll calls).constraints? 6 = some [.var "P", .var "S"] ∧
      (Graph.empty.afterAll calls).InStep := by
  intro calls
  have hcalls : Graph.empty.orderly calls = true := by decide +kernel
  exact ⟨hcalls, by decide +kernel, (Graph.orderly_history_in_step hcalls).1⟩

end StateGraph
