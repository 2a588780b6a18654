-- What failed calls leave behind. A call that merges nothing leaves the graph as
-- it was; merging fails only where the oracle does, and stops before a split it
-- has not touched.
import StateGraph.Proofs.Histories
import StateGraph.Proofs.PooledSessions

namespace StateGraph

open StateGraph.Graph (Sound)

variable {g : Graph}

theorem Reachable.sound (h : Reachable g) : Sound g := by
  obtain ⟨start, calls, hstart, rfl⟩ := h
  exact (Graph.sound_afterAll hstart.sound.1 calls).1

/-! ## Calls that merge nothing -/

/-- A failed call changes nothing. Path conditions can be brought up to date in
every graph that a call leaves half way. -/
theorem Reachable.failed_call_changes_nothing (h : Reachable g) :
    (∀ (c : Call) (e : Error) (g' : Graph), c.isMerge = false →
      c.update.run g = .error e g' → g' = g) ∧
    (∃ n g', Update.propagate.run g = .ok n g') ∧
    (∀ id r g₁, (Update.detachNode id).run g = .ok r g₁ →
      ∃ n g', Update.propagate.run g₁ = .ok n g') ∧
    (∀ source cases g₁, (Update.attachSplit source cases false).run g = .ok () g₁ →
      ∃ n g', Update.propagate.run g₁ = .ok n g') ∧
    ∀ source r g₁, (Update.detachSplit source).run g = .ok r g₁ →
      ∃ n g', Update.propagate.run g₁ = .ok n g' := by
  have hsound := h.sound
  have hpropagate : ∀ {g₁ : Graph}, g₁.Sound → ∃ n g', Update.propagate.run g₁ = .ok n g' := by
    intro g₁ h₁
    obtain ⟨n, g', hrun, -⟩ := Update.propagate_run h₁
    exact ⟨n, g', hrun⟩
  refine ⟨?_, hpropagate hsound, ?_, ?_, ?_⟩
  · intro c e g' hc hrun
    have hsafe := Call.safe hsound hc
    rw [hrun] at hsafe
    exact hsafe
  · intro id r g₁ hrun
    rw [Update.detachNode_run] at hrun
    split at hrun
    · cases hrun
      exact hpropagate (hsound.without id)
    · cases hrun
  · intro source cases g₁ hrun
    rw [Update.attachSplit_run] at hrun
    split at hrun
    · cases hrun
    · rename_i hfault
      cases hrun
      exact hpropagate (hsound.insert_split (Graph.splitFault_eq_none.mp hfault))
  · intro source r g₁ hrun
    cases hrun
    exact hpropagate (hsound.erase_split source)

/-- The computation fails. -/
def failed {ε σ α : Type} : EStateM.Result ε σ α → Bool
  | .ok .. => false
  | .error .. => true

theorem exists_error_of_failed {ε σ α : Type} {r : EStateM.Result ε σ α} (h : failed r = true) :
    ∃ e s, r = .error e s := by
  cases r with
  | ok a s => cases h
  | error e s => exact ⟨e, s, rfl⟩

/-- The computation ends well, with a result that has `p`. -/
def endsWith {ε σ α : Type} (p : α → Bool) : EStateM.Result ε σ α → Bool
  | .ok a _ => p a
  | .error .. => false

theorem exists_ok_of_endsWith {ε σ α : Type} {p : α → Bool} {r : EStateM.Result ε σ α}
    (h : endsWith p r = true) : ∃ a s, r = .ok a s ∧ p a = true := by
  cases r with
  | ok a s => exact ⟨a, s, rfl, h⟩
  | error e s => cases h

theorem reachable_fork : Reachable (Graph.empty.afterAll fork) := ⟨.empty, fork, .empty, rfl⟩

theorem failed_call_changes_nothing_fork :
    ∃ e g', (Call.createEdge 1 2 [.guard .top]).update.run (Graph.empty.afterAll fork) =
      .error e g' ∧ g' = Graph.empty.afterAll fork := by
  obtain ⟨e, g', hrun⟩ := exists_error_of_failed (r :=
    (Call.createEdge 1 2 [.guard .top]).update.run (Graph.empty.afterAll fork)) (by decide +kernel)
  exact ⟨e, g', hrun, reachable_fork.failed_call_changes_nothing.1 _ e g' rfl hrun⟩

/-! ## Merging -/

/-- The oracle always has an answer. -/
structure Oracle.Decides {σ : Type} (oracle : Oracle σ) : Prop where
  mergeable : ∀ a b m e m', (oracle.mergeable a b).run m ≠ .error e m'
  mergeGuards : ∀ guards m e m', (oracle.mergeGuards guards).run m ≠ .error e m'

theorem Oracle.decides_ofRelation (related : Config → Config → Bool) :
    (Oracle.ofRelation related).Decides where
  mergeable := by
    intro a b m e m' hrun
    cases hrun
  mergeGuards := by
    intro guards m e m' hrun
    cases hrun

/-- The record of a split, its branches and their edges are the same. -/
structure BranchSet.Untouched (set : BranchSet) (g g' : Graph) : Prop where
  split : g'.splits.get? set.source = g.splits.get? set.source
  node : ∀ b ∈ set.branches, g'.nodes.get? b.node = g.nodes.get? b.node
  edges : ∀ b ∈ set.branches,
    g'.edgesWhere (some b.node) none = g.edgesWhere (some b.node) none

/-- A split found twice as the same set has the same records both times. -/
theorem BranchSet.untouched {g' : Graph} {source : NodeId} {set : BranchSet}
    (h : g.branchSet? source = some set) (h' : g'.branchSet? source = some set) :
    set.Untouched g g' := by
  obtain ⟨rfl, cases, hq⟩ := Graph.branchSet?_eq_some h
  obtain ⟨-, cases', hq'⟩ := Graph.branchSet?_eq_some h'
  have hcases : cases' = cases := by
    have hguards := Table.eq_of_toList_eq (hq'.entries.trans hq.entries.symm)
    have hshared := hq'.shared.trans hq.shared.symm
    obtain ⟨shared, guards⟩ := cases
    obtain ⟨shared', guards'⟩ := cases'
    exact congrArg₂ Cases.mk hshared hguards
  refine ⟨by rw [hq'.split, hq.split, hcases], fun b hb => ?_, fun b hb => ?_⟩
  · rw [(hq'.branch b hb).config, (hq.branch b hb).config]
  · rw [(hq'.branch b hb).edge, (hq.branch b hb).edge]

theorem Graph.branchSet?_of_mem {set : BranchSet} (h : set ∈ g.branchSets) :
    g.branchSet? set.source = some set := by
  obtain ⟨source, -, hsource⟩ := List.mem_filterMap.mp h
  obtain ⟨rfl, -⟩ := branchSet?_eq_some hsource
  exact hsource

theorem Graph.qualified_of_mem {set : BranchSet} (h : set ∈ g.branchSets) :
    ∃ cases, Qualified g set cases :=
  (branchSet?_eq_some (branchSet?_of_mem h)).2

theorem Graph.mem_branchSets {source : NodeId} {set : BranchSet}
    (h : g.branchSet? source = some set) : set ∈ g.branchSets := by
  obtain ⟨rfl, cases, hq⟩ := branchSet?_eq_some h
  exact List.mem_filterMap.mpr ⟨_, Table.mem_keys.mpr hq.source_mem_splits, h⟩

namespace Merging

variable {σ : Type} {oracle : Oracle σ} {s : Session σ}

/-- With an oracle that always decides, merging does not fail. -/
theorem rounds_ok (hdecides : oracle.Decides) (h : s.graph.Sound) (limit : Nat) (report : Report) :
    ∃ report' s', EStateM.run (rounds oracle limit report) s = .ok report' s' := by
  cases hrun : EStateM.run (rounds oracle limit report) s with
  | ok report' s' => exact ⟨report', s', rfl⟩
  | error e s' =>
    obtain ⟨k, -, report', s₁, -, -, hfails⟩ :=
      (rounds_keeps oracle limit report h).error e s' hrun
    cases hfails with
    | asking set _ hask _ =>
      obtain ⟨a, b, -, m, m', hfail⟩ := hask
      exact absurd hfail (hdecides.mergeable _ _ _ _ _)
    | guarding found s₂ before after p _ _ _ _ hstop =>
      obtain ⟨c, -, bs, -, -, m, m', hfail⟩ := hstop.error
      exact absurd hfail (hdecides.mergeGuards _ _ _ _)

end Merging

open Merging

/-- With a pool or without, merging leads from one graph that calls lead to only to
others. -/
theorem Reachable.merged (h : Reachable g) {σ : Type} (oracle : Oracle σ) (memory : σ)
    (options : Options) (pool : Pool) :
    Reachable (stateOf (EStateM.run (runWith options pool oracle)
      { graph := g, memory := memory })).graph := by
  obtain ⟨start, calls, hstart, rfl⟩ := h
  obtain ⟨limit, -, hgraph⟩ := runWith_graph options pool oracle
    { graph := start.afterAll calls, memory := memory }
  refine ⟨start, calls ++ [.merge oracle memory limit], hstart, ?_⟩
  rw [hgraph, Graph.afterAll_append]
  exact (Call.after_merge oracle memory limit).symm

/-- Merging fails only with an error of the oracle, whatever the options and the pool
are. A question stops it before the round has changed anything. A guard stops it after
the plans before, and the split in question is as it was when the round began. -/
theorem Reachable.merging_stops_on_whole_split (h : Reachable g) {σ : Type} (oracle : Oracle σ)
    (memory : σ) (options : Options) (pool : Pool) :
    let s : Session σ := { graph := g, memory := memory }
    (oracle.Decides → ∃ report s',
      EStateM.run (runWith options pool oracle) s = .ok report s') ∧
    ∀ e s', EStateM.run (runWith options pool oracle) s = .error e s' →
      ∃ k < options.roundLimit, ∃ report s₁,
        EStateM.run (runWith { options with roundLimit := k } pool oracle) s = .ok report s₁ ∧
        report.rounds = k ∧ (k = 0 → s₁.graph = g) ∧
        ((s'.graph = s₁.graph ∧ ∃ set ∈ s₁.graph.branchSets, AskFails oracle set e) ∨
          ∃ found s₂ before p after,
            EStateM.run (discoverAll options pool oracle s₁.graph.branchSets) s₁ = .ok found s₂ ∧
            s₂.graph = s₁.graph ∧ plansOf found = before ++ p :: after ∧
            StopsAt oracle s₂ s' before p e ∧ p.set.Untouched s₁.graph s'.graph) := by
  intro s
  refine ⟨fun hdecides => ?_, fun e s' hrun => ?_⟩
  · obtain ⟨report, s', hrun⟩ := rounds_ok (s := s) hdecides h.sound options.roundLimit {}
    exact ⟨report, s', runWith_ok_iff.mpr hrun⟩
  have hkeeps := runWith_keeps (s := s) options pool oracle h.sound
  obtain ⟨k, hk, report, s₁, hrun₁, hcount, hround⟩ := hkeeps.error e s' hrun
  refine ⟨k, hk, report, s₁, runWith_ok_iff.mpr hrun₁, hcount, ?_, ?_⟩
  · rintro rfl
    cases hrun₁
    rfl
  · cases hround with
    | asking set hset hask hgraph => exact Or.inl ⟨hgraph, set, hset, hask⟩
    | guarding found s₂ before after p hfound hgraph hplans hmember hstop =>
      refine Or.inr ⟨found, s₂, before, p, after, discoverAll_ok_iff.mpr hfound, hgraph, hplans,
        hstop, ?_⟩
      exact BranchSet.untouched (Graph.branchSet?_of_mem hmember) hstop.current

/-- The configurations of one term may share a path, but no guard is ever given. -/
def guardless : Oracle Unit :=
  .ofFunctions (fun a b => .ok (a.term == b.term)) fun _ => .error (.oracle "no guard")

/-- Calls that make two splits, all branches of which lead to node 4. The branches of
the one hold the same term, one branch of the other holds a term of its own. -/
def forks : List Call :=
  (["X", "X", "X", "X", "X", "X", "X", "Y"].map fun x => .addNode { term := .var x }) ++
    ([2, 3, 6, 7, 8].map fun id => .createEdge id 4 [.guard .top]) ++
    [.createSplit 1 { guards := .ofList [(2, .assume [.var "P"]), (3, .top)] },
      .createSplit 5 { guards := .ofList [(6, .top), (7, .top), (8, .top)] }]

theorem reachable_forks : Reachable (Graph.empty.afterAll forks) := ⟨.empty, forks, .empty, rfl⟩

theorem merging_stops_on_whole_split_forks :
    let s : Session Unit := { graph := Graph.empty.afterAll forks, memory := () }
    (∃ report s', EStateM.run (runWith {} .inOrder .sameTerm) s = .ok report s') ∧
      ∃ e s', EStateM.run (runWith {} .inOrder guardless) s = .error e s' ∧
        ∃ k < defaultRoundLimit, ∃ report s₁,
          EStateM.run (runWith { roundLimit := k } .inOrder guardless) s = .ok report s₁ ∧
            report.rounds = k := by
  intro s
  refine ⟨(reachable_forks.merging_stops_on_whole_split .sameTerm () {} .inOrder).1
    (Oracle.decides_ofRelation _), ?_⟩
  obtain ⟨e, s', hrun⟩ := exists_error_of_failed
    (r := EStateM.run (runWith {} .inOrder guardless) s) (by decide +kernel)
  obtain ⟨k, hk, report, s₁, hrun₁, hcount, -⟩ :=
    (reachable_forks.merging_stops_on_whole_split guardless () {} .inOrder).2 e s' hrun
  exact ⟨e, s', hrun, k, hk, report, s₁, hrun₁, hcount⟩

end StateGraph
