-- What a failed session leaves of the path conditions. The round that fails stops
-- before it brings them up to date. So whatever its earlier plans have made or made
-- again may be out of step; every other split is in step.
import StateGraph.Proofs.InStep
import StateGraph.Proofs.Sessions
import StateGraph.Proofs.StuckSplits

namespace StateGraph

open StateGraph.Graph (Sound)

namespace Graph

variable {g g' : Graph} {set : BranchSet} {paths : List MergedPath} {s t : NodeId}

/-- Targets are in step with the splits of some sources, where these govern them. -/
def InStepAt (g : Graph) (S : NodeId → Prop) : Prop :=
  ∀ s t, S s → Governs g.splits s t → g.HoldsGiven s t

namespace Reworked

/-- Another split that governs a target has governed it before. -/
theorem governs_before (h : Reworked g g' set paths) (hs : s < g.next) (hne : s ≠ set.source)
    (hst : Governs g'.splits s t) :
    Governs g.splits s t ∧ ¬ Absorbed paths s ∧ ¬ Absorbed paths t := by
  rcases (h.branchesTo s t).mp hst.branchesTo with ⟨hks, hkt, hbefore⟩ | ⟨he, -⟩ | ⟨p, hp, he, -⟩
  · refine ⟨⟨hbefore, fun a ha => hst.lowest a ?_⟩, hks, hkt⟩
    obtain ⟨cases, hcases, -⟩ := id ha
    have hka : ¬ Absorbed paths a := fun habs =>
      h.absorbed_no_split habs (Table.mem_of_get? hcases)
    exact (h.branchesTo a t).mpr (Or.inl ⟨hka, hkt, ha⟩)
  · exact absurd he hne
  · exact absurd hs (Nat.not_lt.mpr (he ▸ h.merged_new p hp))

theorem inStepAt (h : Reworked g g' set paths) {S : NodeId → Prop} (hold : ∀ s, S s → s < g.next)
    (hsource : ¬ S set.source) (hstep : g.InStepAt S) : g'.InStepAt S := by
  intro s t hs hst
  have hne : s ≠ set.source := fun he => hsource (he ▸ hs)
  obtain ⟨hbefore, hks, hkt⟩ := h.governs_before (hold s hs) hne hst
  obtain ⟨cases, hcases, -⟩ := id hbefore.branchesTo
  have hsmem := h.sound.split_source s (Table.mem_of_get? hcases)
  have htmem := h.sound.split_target s t hbefore.branchesTo
  refine (hstep s t hs hbefore).congr ?_ (h.node s hsmem hks) (h.node t htmem hkt)
  exact h.split s hsmem hne hks fun b hb habs => hne ((h.branchesTo_iff habs).mp hb)

end Reworked

end Graph

namespace Merging

variable {σ : Type} {oracle : Oracle σ} {s s' : Session σ}

/-- Plans that are carried out leave all other splits in step. -/
theorem carryOut_all_inStepAt {plans : List Plan} {all : List (List Group)} {S : NodeId → Prop}
    (h : s.graph.Sound) (hfits : ∀ p ∈ plans, p.Fits ∧ p.cliques ≠ [])
    (hold : ∀ id, S id → id < s.graph.next) (hsources : ∀ p ∈ plans, ¬ S p.set.source)
    (hstep : s.graph.InStepAt S)
    (hrun : EStateM.run (plans.mapM (carryOutIfCurrent oracle)) s = .ok all s') :
    s'.graph.InStepAt S := by
  induction plans generalizing s all with
  | nil =>
    cases hrun
    exact hstep
  | cons p plans ih =>
    obtain ⟨groups, s₁, more, hp, hrest, -⟩ := carryOut_cons_ok hrun
    obtain ⟨hfitsp, hne⟩ := hfits p List.mem_cons_self
    have hkeeps := carryOutIfCurrent_keeps oracle h hfitsp hne
    rw [hp] at hkeeps
    have hstep₁ : s₁.graph.InStepAt S := by
      rcases carryOutIfCurrent_ok hp with ⟨-, -, rfl⟩ | ⟨hcurrent, hcarried⟩
      · exact hstep
      · obtain ⟨paths, hreworked, -⟩ := carried_of_run h hfitsp hne hcurrent hcarried
        exact hreworked.inStepAt hold (hsources p List.mem_cons_self) hstep
    exact ih hkeeps.sound (fun q hq => hfits q (List.mem_cons_of_mem _ hq))
      (fun id hid => Nat.lt_of_lt_of_le (hold id hid) hkeeps.grows.next_le)
      (fun q hq => hsources q (List.mem_cons_of_mem _ hq)) hstep₁ hrest

end Merging

open Merging

variable {g : Graph}

/-- Merging that fails on a question, or on the first plan of a round, leaves path
conditions in step, whatever the options and the pool are. On a later plan it leaves in
step every split that stood when the round began and that no plan before was for. In any
case they can be brought up to date. -/
theorem Reachable.failed_merging_in_step (h : Reachable g)
    (hzero : ∃ g', Update.propagate.run g = .ok 0 g') {σ : Type} (oracle : Oracle σ) (memory : σ)
    (options : Options) (pool : Pool) {e : Error} {s' : Session σ}
    (hrun : EStateM.run (runWith options pool oracle) { graph := g, memory := memory } =
      .error e s') :
    (∃ n g', Update.propagate.run s'.graph = .ok n g' ∧ s'.graph.Settles g') ∧
      ∃ k < options.roundLimit, ∃ report s₁,
        EStateM.run (runWith { options with roundLimit := k } pool oracle)
          { graph := g, memory := memory } = .ok report s₁ ∧
        report.rounds = k ∧ Update.propagate.run s₁.graph = .ok 0 s₁.graph ∧
        (((∃ set ∈ s₁.graph.branchSets, AskFails oracle set e) ∧
            Update.propagate.run s'.graph = .ok 0 s'.graph) ∨
          ∃ found s₂ before p after,
            EStateM.run (discoverAll options pool oracle s₁.graph.branchSets) s₁ = .ok found s₂ ∧
            plansOf found = before ++ p :: after ∧ StopsAt oracle s₂ s' before p e ∧
            (before = [] → Update.propagate.run s'.graph = .ok 0 s'.graph) ∧
            s'.graph.InStepAt fun id =>
              id ∈ s₁.graph.nodes ∧ ∀ q ∈ before, q.set.source ≠ id) := by
  have hkeeps := runWith_keeps (s := { graph := g, memory := memory }) options pool oracle h.sound
  obtain ⟨k, hk, report, s₁, hrun₁, hcount, hround⟩ := hkeeps.error e s' hrun
  have hkeeps₁ := rounds_keeps (s := { graph := g, memory := memory }) oracle k {} h.sound
  unfold Merging.run at hrun₁
  rw [hrun] at hkeeps
  rw [hrun₁] at hkeeps₁
  have hsound₁ : s₁.graph.Sound := hkeeps₁.sound
  have hstep₁ : s₁.graph.InStep := rounds_inStep (s := { graph := g, memory := memory }) h.sound
    ((Update.propagate_zero_iff h.sound).mp hzero) hrun₁
  have hzero₁ := Update.propagate_of_inStep hsound₁ hstep₁
  obtain ⟨n, g', hpropagate, hsettles, -⟩ := Update.propagate_settles hkeeps.sound
  refine ⟨⟨n, g', hpropagate, hsettles⟩, k, hk, report, s₁, runWith_ok_iff.mpr hrun₁,
    hcount, hzero₁, ?_⟩
  cases hround with
  | asking set hset hask hgraph => exact Or.inl ⟨⟨set, hset, hask⟩, hgraph ▸ hzero₁⟩
  | guarding found s₂ before after p hfound hgraph hplans hmember hstop =>
    refine Or.inr ⟨found, s₂, before, p, after, discoverAll_ok_iff.mpr hfound, hplans, hstop, ?_, ?_⟩
    · rintro rfl
      obtain ⟨groups, s₃, hnone, hgraph₃⟩ := hstop.carried
      cases hnone
      rw [hgraph₃, hgraph]
      exact hzero₁
    · obtain ⟨groups, s₃, hcarried, hgraph₃⟩ := hstop.carried
      have hfits : ∀ q ∈ before, q.Fits ∧ q.cliques ≠ [] := fun q hq =>
        (((discover_all oracle s₁.graph.branchSets).ok hfound).2 q (by rw [hplans]; simp [hq])).2
      rw [hgraph₃]
      refine carryOut_all_inStepAt (hgraph ▸ hsound₁) hfits ?_ ?_ ?_ hcarried
      · rw [hgraph]
        exact fun id hid => (hsound₁.in_range id hid.1).2
      · exact fun q hq hid => hid.2 q hq rfl
      · rw [hgraph]
        exact fun a b _ hab => hstep₁ a b hab

theorem forks_in_step : ∃ g', Update.propagate.run (Graph.empty.afterAll forks) = .ok 0 g' := by
  obtain ⟨n, g', hrun, hn⟩ := exists_ok_of_endsWith (p := fun n : Nat => n == 0)
    (r := Update.propagate.run (Graph.empty.afterAll forks)) (by decide +kernel)
  exact ⟨g', beq_iff_eq.mp hn ▸ hrun⟩

theorem failed_merging_in_step_forks :
    let s : Session Unit := { graph := Graph.empty.afterAll forks, memory := () }
    ∃ e s', EStateM.run (runWith {} .inOrder guardless) s = .error e s' ∧
      (∃ n g', Update.propagate.run s'.graph = .ok n g' ∧ s'.graph.Settles g') ∧
      ∃ k < defaultRoundLimit, ∃ report s₁,
        EStateM.run (runWith { roundLimit := k } .inOrder guardless) s = .ok report s₁ ∧
        report.rounds = k ∧ Update.propagate.run s₁.graph = .ok 0 s₁.graph := by
  intro s
  obtain ⟨e, s', hrun⟩ := exists_error_of_failed
    (r := EStateM.run (runWith {} .inOrder guardless) s) (by decide +kernel)
  obtain ⟨hagain, k, hk, report, s₁, hrun₁, hcount, hzero, -⟩ :=
    reachable_forks.failed_merging_in_step forks_in_step guardless () {} .inOrder hrun
  exact ⟨e, s', hrun, hagain, k, hk, report, s₁, hrun₁, hcount, hzero⟩

/-- A session that fails on its second plan can leave a target that does not hold what
the first plan gives it. -/
theorem failed_merging_out_of_step :
    ¬ ∀ g, Reachable g → (∃ g', Update.propagate.run g = .ok 0 g') →
      ∀ (mergeable : Config → Config → Except Error Bool)
        (mergeGuards : List Effect → Except Error Effect) (limit : Nat) (e : Error)
        (s' : Session Unit),
        EStateM.run (Merging.run (.ofFunctions mergeable mergeGuards) limit)
          { graph := g, memory := () } = .error e s' →
        ∃ g', Update.propagate.run s'.graph = .ok 0 g' := by
  intro hall
  obtain ⟨e, s', hrun⟩ := exists_error_of_failed (r := EStateM.run (Merging.run guardless 64)
    { graph := Graph.empty.afterAll forks, memory := () }) (by decide +kernel)
  obtain ⟨g', hzero⟩ := hall _ reachable_forks forks_in_step _ _ 64 e s' hrun
  have hone : endsWith (fun n : Nat => n == 1) (Update.propagate.run
      (stateOf (EStateM.run (Merging.run guardless 64)
        { graph := Graph.empty.afterAll forks, memory := () })).graph) = true := by decide +kernel
  rw [hrun, stateOf, hzero] at hone
  cases hone

end StateGraph
