-- Rounds of a merging session. Each leaves a sound graph, and a round that fails
-- has done exactly what came before the plan, or the question, that failed it.
import StateGraph.Proofs.CarriedOut
import StateGraph.Proofs.Propagation

namespace StateGraph

/-- The report once the splits of a round have been asked about. -/
def Report.asked (r : Report) (found : List (Plan × Nat)) : Report :=
  { r with oracleCalls := found.foldl (fun n f => n + f.2) r.oracleCalls }

/-- The report once a round has merged some groups. -/
def Report.merged (r : Report) (groups : List Group) : Report :=
  { r with groups := r.groups ++ groups, rounds := r.rounds + if groups.isEmpty then 0 else 1 }

namespace Merging

variable {σ : Type} {s : Session σ}

/-! ## The plans of a round -/

/-- A plan of a round stops it with an error. Those before it are carried out,
and the plan itself has changed nothing. -/
structure StopsAt (oracle : Oracle σ) (s s' : Session σ) (before : List Plan) (p : Plan)
    (e : Error) : Prop where
  carried : ∃ groups s₁,
    EStateM.run (before.mapM (carryOutIfCurrent oracle)) s = .ok groups s₁ ∧ s'.graph = s₁.graph
  current : s'.graph.branchSet? p.set.source = some p.set
  error : ∃ c ∈ p.cliques, GuardFails oracle p.set c e

theorem carryOutIfCurrent_keeps (oracle : Oracle σ) (h : s.graph.Sound) {p : Plan} (hp : p.Fits)
    (hne : p.cliques ≠ []) :
    Keeps s.graph (fun e s' => StopsAt oracle s s' [] p e)
      (EStateM.run (carryOutIfCurrent oracle p) s) := by
  unfold carryOutIfCurrent
  simp only [EStateM.run_bind, EStateM.run_get]
  split
  · rename_i hcurrent
    obtain ⟨-, cases, hq⟩ := Graph.branchSet?_eq_some hcurrent
    have hcarry := carryOut_keeps oracle h hq hp hne
    refine ⟨hcarry.sound, hcarry.grows, fun e s' hrun => ?_⟩
    obtain ⟨hgraph, hfail⟩ := hcarry.error e s' hrun
    exact ⟨⟨[], s, rfl, hgraph⟩, by rw [hgraph]; exact hcurrent, hfail⟩
  · exact keeps_ok h (.refl _)

theorem StopsAt.cons {oracle : Oracle σ} {s₁ s' : Session σ} {before : List Plan} {p q : Plan}
    {e : Error} {groups : List Group}
    (hq : EStateM.run (carryOutIfCurrent oracle q) s = .ok groups s₁)
    (h : StopsAt oracle s₁ s' before p e) : StopsAt oracle s s' (q :: before) p e := by
  obtain ⟨more, s₂, hrun, hgraph⟩ := h.carried
  refine ⟨⟨groups :: more, s₂, ?_, hgraph⟩, h.current, h.error⟩
  rw [List.mapM_cons]
  simp only [EStateM.run_bind, hq, hrun]
  rfl

/-- The plans are carried out in their order, until one fails. -/
theorem carryOut_all (oracle : Oracle σ) {plans : List Plan} (h : s.graph.Sound)
    (hfits : ∀ p ∈ plans, p.Fits ∧ p.cliques ≠ []) :
    Keeps s.graph (fun e s' => ∃ before p after, plans = before ++ p :: after ∧
        StopsAt oracle s s' before p e)
      (EStateM.run (plans.mapM (carryOutIfCurrent oracle)) s) := by
  induction plans generalizing s with
  | nil => exact keeps_ok h (.refl _)
  | cons q plans ih =>
    have hq := carryOutIfCurrent_keeps oracle h (hfits q List.mem_cons_self).1
      (hfits q List.mem_cons_self).2
    rw [List.mapM_cons]
    refine Keeps.bind (hq.imp fun e s' hstop => ⟨[], q, plans, rfl, hstop⟩) ?_
    intro groups s₁ hrun hs₁
    have hrest := ih hs₁ fun p hp => hfits p (List.mem_cons_of_mem _ hp)
    refine Keeps.bind (hrest.imp fun e s' hstop => ?_) fun more s₂ _ hs₂ => keeps_ok hs₂ (.refl _)
    obtain ⟨before, p, after, hplans, hstop⟩ := hstop
    exact ⟨q :: before, p, after, by rw [hplans]; rfl, hstop.cons hrun⟩

/-! ## One round -/

/-- The plans that merge something. -/
def plansOf (found : List (Plan × Nat)) : List Plan :=
  (found.map (·.1)).filter fun p => !p.cliques.isEmpty

/-- One round: the report after it, and whether another may follow. -/
def roundBy (find : List BranchSet → Merging σ (List (Plan × Nat))) (oracle : Oracle σ)
    (report : Report) : Merging σ (Report × Bool) := do
  let found ← find (← get).graph.branchSets
  let report := { report with oracleCalls := found.foldl (fun n r => n + r.2) report.oracleCalls }
  if (plansOf found).isEmpty then return (report, false)
  let groups := (← (plansOf found).mapM (carryOutIfCurrent oracle)).flatten
  let _ ← update Update.propagate
  let report := { report with groups := report.groups ++ groups }
  if groups.isEmpty then return (report, false)
  return ({ report with rounds := report.rounds + 1 }, true)

/-- One round that decides one split after the other. -/
def round (oracle : Oracle σ) (report : Report) : Merging σ (Report × Bool) :=
  roundBy (·.mapM (discover oracle)) oracle report

theorem roundsBy_succ (find : List BranchSet → Merging σ (List (Plan × Nat))) (oracle : Oracle σ)
    (limit : Nat) (report : Report) (s : Session σ) :
    EStateM.run (roundsBy find oracle (limit + 1) report) s =
      match EStateM.run (roundBy find oracle report) s with
      | .ok (report, true) s' => EStateM.run (roundsBy find oracle limit report) s'
      | .ok (report, false) s' => .ok report s'
      | .error e s' => .error e s' := by
  simp only [roundsBy, roundBy, EStateM.run_bind, EStateM.run_get]
  cases EStateM.run (find s.graph.branchSets) s with
  | error e s' => rfl
  | ok found s₁ =>
    simp only [show ((found.map (·.1)).filter fun p => !p.cliques.isEmpty) = plansOf found from rfl]
    by_cases hplans : (plansOf found).isEmpty = true
    · simp only [hplans, ↓reduceIte]
      rfl
    · simp only [hplans, Bool.false_eq_true, ↓reduceIte, EStateM.run_bind]
      cases EStateM.run ((plansOf found).mapM (carryOutIfCurrent oracle)) s₁ with
      | error e s' => rfl
      | ok groups s₂ =>
        simp only
        cases EStateM.run (update Update.propagate) s₂ with
        | error e s' => rfl
        | ok n s₃ =>
          by_cases hgroups : groups.flatten.isEmpty = true
          · simp only [hgroups, ↓reduceIte]
            rfl
          · simp only [hgroups, Bool.false_eq_true, ↓reduceIte]
            rfl

theorem rounds_succ (oracle : Oracle σ) (limit : Nat) (report : Report) (s : Session σ) :
    EStateM.run (rounds oracle (limit + 1) report) s =
      match EStateM.run (round oracle report) s with
      | .ok (report, true) s' => EStateM.run (rounds oracle limit report) s'
      | .ok (report, false) s' => .ok report s'
      | .error e s' => .error e s' :=
  roundsBy_succ _ oracle limit report s

/-- How a round fails: on a question, before anything has been changed, or on a
plan. -/
inductive RoundFails (oracle : Oracle σ) (s s' : Session σ) (e : Error) : Prop where
  | asking (set : BranchSet) (found : set ∈ s.graph.branchSets) (fails : AskFails oracle set e)
      (graph : s'.graph = s.graph)
  | guarding (found : List (Plan × Nat)) (s₁ : Session σ) (before after : List Plan) (p : Plan)
      (discovered : EStateM.run (s.graph.branchSets.mapM (discover oracle)) s = .ok found s₁)
      (graph : s₁.graph = s.graph) (plans : plansOf found = before ++ p :: after)
      (member : p.set ∈ s.graph.branchSets) (stops : StopsAt oracle s₁ s' before p e)

theorem discover_each (oracle : Oracle σ) (sets : List BranchSet) :
    Quiet (fun found => found.map (·.1.set) = sets ∧ ∀ r ∈ found, r.1.Fits)
      (fun e => ∃ set ∈ sets, AskFails oracle set e) (sets.mapM (discover oracle)) := by
  refine Quiet.mapM_keyed fun set hset => ?_
  exact (quiet_discover oracle set).imp (fun _ => id) fun e he => ⟨set, hset, he⟩

theorem discover_all (oracle : Oracle σ) (sets : List BranchSet) :
    Quiet (fun found => ∀ p ∈ plansOf found, p.set ∈ sets ∧ p.Fits ∧ p.cliques ≠ [])
      (fun e => ∃ set ∈ sets, AskFails oracle set e) (sets.mapM (discover oracle)) := by
  refine (discover_each oracle sets).imp (fun found hfound p hp => ?_) fun _ => id
  obtain ⟨hp, hne⟩ := List.mem_filter.mp hp
  obtain ⟨r, hr, rfl⟩ := List.mem_map.mp hp
  exact ⟨hfound.1 ▸ List.mem_map_of_mem hr, hfound.2 r hr, by simpa using hne⟩

theorem propagate_keeps {Q : Error → Session σ → Prop} (h : s.graph.Sound) :
    Keeps s.graph Q (EStateM.run (update Update.propagate) s) := by
  obtain ⟨n, g', hrun, hg'⟩ := Update.propagate_run h
  rw [update_run, hrun]
  exact keeps_ok (h.reconfigured hg') hg'.grows

/-- Path conditions that have been brought up to date leave the rest of a session
alone. -/
theorem propagate_ok {s' : Session σ} {n : Nat} (h : s.graph.Sound)
    (hrun : EStateM.run (update Update.propagate) s = .ok n s') :
    ∃ g', s.graph.Settles g' ∧ s' = { s with graph := g' } := by
  obtain ⟨n, g', hpropagate, hg', -⟩ := Update.propagate_settles h
  rw [update_run, hpropagate] at hrun
  cases hrun
  exact ⟨g', hg', rfl⟩

/-- How a round ends: on a question, with nothing to merge, on a plan, while path
conditions are brought up to date, or with all of it done. -/
inductive RoundEnds (oracle : Oracle σ) (report : Report) (s : Session σ) :
    EStateM.Result Error (Session σ) (Report × Bool) → Prop
  | asking {e : Error} {s' : Session σ}
      (stops : EStateM.run (s.graph.branchSets.mapM (discover oracle)) s = .error e s') :
      RoundEnds oracle report s (.error e s')
  | idle {found : List (Plan × Nat)} {s₁ : Session σ}
      (discovered : EStateM.run (s.graph.branchSets.mapM (discover oracle)) s = .ok found s₁)
      (nothing : plansOf found = []) :
      RoundEnds oracle report s (.ok (report.asked found, false) s₁)
  | guarding {found : List (Plan × Nat)} {s₁ s' : Session σ} {e : Error}
      (discovered : EStateM.run (s.graph.branchSets.mapM (discover oracle)) s = .ok found s₁)
      (stops : EStateM.run ((plansOf found).mapM (carryOutIfCurrent oracle)) s₁ = .error e s') :
      RoundEnds oracle report s (.error e s')
  | settling {found : List (Plan × Nat)} {s₁ s₂ s' : Session σ} {groups : List (List Group)}
      {e : Error}
      (discovered : EStateM.run (s.graph.branchSets.mapM (discover oracle)) s = .ok found s₁)
      (carried : EStateM.run ((plansOf found).mapM (carryOutIfCurrent oracle)) s₁ = .ok groups s₂)
      (stops : EStateM.run (update Update.propagate) s₂ = .error e s') :
      RoundEnds oracle report s (.error e s')
  | done {found : List (Plan × Nat)} {s₁ s₂ s₃ : Session σ} {groups : List (List Group)} {n : Nat}
      (discovered : EStateM.run (s.graph.branchSets.mapM (discover oracle)) s = .ok found s₁)
      (carried : EStateM.run ((plansOf found).mapM (carryOutIfCurrent oracle)) s₁ = .ok groups s₂)
      (settled : EStateM.run (update Update.propagate) s₂ = .ok n s₃)
      (something : plansOf found ≠ []) :
      RoundEnds oracle report s
        (.ok ((report.asked found).merged groups.flatten, !groups.flatten.isEmpty) s₃)

section Ends

variable {oracle : Oracle σ} {report : Report} {found : List (Plan × Nat)} {s₁ s₂ s₃ : Session σ}
  {groups : List (List Group)} {n : Nat}

theorem round_idle
    (hfound : EStateM.run (s.graph.branchSets.mapM (discover oracle)) s = .ok found s₁)
    (hnone : plansOf found = []) :
    EStateM.run (round oracle report) s = .ok (report.asked found, false) s₁ := by
  simp only [round, roundBy, EStateM.run_bind, EStateM.run_get, hfound, hnone, List.isEmpty_nil, ↓reduceIte]
  rfl

theorem round_done
    (hfound : EStateM.run (s.graph.branchSets.mapM (discover oracle)) s = .ok found s₁)
    (hcarried : EStateM.run ((plansOf found).mapM (carryOutIfCurrent oracle)) s₁ = .ok groups s₂)
    (hsettled : EStateM.run (update Update.propagate) s₂ = .ok n s₃)
    (hsome : plansOf found ≠ []) :
    EStateM.run (round oracle report) s =
      .ok ((report.asked found).merged groups.flatten, !groups.flatten.isEmpty) s₃ := by
  have hplans : (plansOf found).isEmpty = false := List.isEmpty_eq_false_iff.mpr hsome
  simp only [round, roundBy, EStateM.run_bind, EStateM.run_get, hfound, hplans, Bool.false_eq_true,
    ↓reduceIte, hcarried, hsettled]
  by_cases hgroups : groups.flatten.isEmpty = true
  · simp only [Report.merged, hgroups, ↓reduceIte]
    rfl
  · simp only [Report.merged, hgroups, Bool.false_eq_true, ↓reduceIte]
    rfl

end Ends

theorem round_ends (oracle : Oracle σ) (report : Report) (s : Session σ) :
    RoundEnds oracle report s (EStateM.run (round oracle report) s) := by
  cases hfound : EStateM.run (s.graph.branchSets.mapM (discover oracle)) s with
  | error e s' =>
    simp only [round, roundBy, EStateM.run_bind, EStateM.run_get, hfound]
    exact .asking hfound
  | ok found s₁ =>
    by_cases hplans : plansOf found = []
    · rw [round_idle hfound hplans]
      exact .idle hfound hplans
    have hsome : (plansOf found).isEmpty = false := List.isEmpty_eq_false_iff.mpr hplans
    cases hcarried : EStateM.run ((plansOf found).mapM (carryOutIfCurrent oracle)) s₁ with
    | error e s' =>
      simp only [round, roundBy, EStateM.run_bind, EStateM.run_get, hfound, hsome, Bool.false_eq_true,
        ↓reduceIte, hcarried]
      exact .guarding hfound hcarried
    | ok groups s₂ =>
      cases hsettled : EStateM.run (update Update.propagate) s₂ with
      | error e s' =>
        simp only [round, roundBy, EStateM.run_bind, EStateM.run_get, hfound, hsome, Bool.false_eq_true,
          ↓reduceIte, hcarried, hsettled]
        exact .settling hfound hcarried hsettled
      | ok n s₃ =>
        rw [round_done hfound hcarried hsettled hplans]
        exact .done hfound hcarried hsettled hplans

/-- What a round does is the same whatever report it adds to. -/
theorem round_report {oracle : Oracle σ} {report r : Report} {more : Bool} {s' : Session σ}
    (hrun : EStateM.run (round oracle report) s = .ok (r, more) s') (report' : Report) :
    ∃ r', EStateM.run (round oracle report') s = .ok (r', more) s' := by
  have hends := round_ends oracle report s
  rw [hrun] at hends
  cases hends with
  | idle hfound hnothing => exact ⟨_, round_idle hfound hnothing⟩
  | done hfound hcarried hsettled hsome => exact ⟨_, round_done hfound hcarried hsettled hsome⟩

/-- A round leaves a sound graph. It fails only where the oracle does. -/
theorem round_keeps (oracle : Oracle σ) (report : Report) (h : s.graph.Sound) :
    Keeps s.graph (fun e s' => RoundFails oracle s s' e)
      (EStateM.run (round oracle report) s) := by
  have hquiet := discover_all oracle s.graph.branchSets
  have hcarry : ∀ {found s₁},
      EStateM.run (s.graph.branchSets.mapM (discover oracle)) s = .ok found s₁ →
      Keeps s₁.graph (fun e s' => RoundFails oracle s s' e)
        (EStateM.run ((plansOf found).mapM (carryOutIfCurrent oracle)) s₁) := by
    intro found s₁ hfound
    obtain ⟨hgraph, hplans⟩ := hquiet.ok hfound
    refine (carryOut_all oracle (hgraph ▸ h) fun p hp => (hplans p hp).2).imp fun e s' hstop => ?_
    obtain ⟨before, p, after, hsplit, hstop⟩ := hstop
    have hp : p ∈ plansOf found := by rw [hsplit]; simp
    exact .guarding found s₁ before after p hfound hgraph hsplit (hplans p hp).1 hstop
  have hends := round_ends oracle report s
  generalize EStateM.run (round oracle report) s = r at hends
  cases hends with
  | asking hstop =>
    have hkeeps := hquiet.keeps h
    rw [hstop] at hkeeps
    obtain ⟨hgraph, set, hset, hfails⟩ := hkeeps.error _ _ rfl
    exact keeps_error hkeeps.sound hkeeps.grows (.asking set hset hfails hgraph)
  | idle hfound _ =>
    obtain ⟨hgraph, -⟩ := hquiet.ok hfound
    exact keeps_ok (hgraph ▸ h) (hgraph ▸ .refl _)
  | guarding hfound hstop =>
    obtain ⟨hgraph, -⟩ := hquiet.ok hfound
    have hkeeps := hcarry hfound
    rw [hstop] at hkeeps
    exact keeps_error hkeeps.sound (hgraph ▸ hkeeps.grows) (hkeeps.error _ _ rfl)
  | settling hfound hcarried hstop =>
    have hkeeps := hcarry hfound
    rw [hcarried] at hkeeps
    have hpropagate := propagate_keeps (Q := fun _ _ => False) hkeeps.sound
    rw [stateOf, hstop] at hpropagate
    exact (hpropagate.error _ _ rfl).elim
  | done hfound hcarried hsettled =>
    obtain ⟨hgraph, -⟩ := hquiet.ok hfound
    have hkeeps := hcarry hfound
    rw [hcarried] at hkeeps
    have hpropagate := propagate_keeps (Q := fun _ _ => False) hkeeps.sound
    rw [stateOf, hsettled] at hpropagate
    exact keeps_ok hpropagate.sound (hgraph ▸ hkeeps.grows.trans hpropagate.grows)

/-- A round that another may follow has been counted. -/
theorem round_counts {oracle : Oracle σ} {report report' : Report} {s' : Session σ}
    (hrun : EStateM.run (round oracle report) s = .ok (report', true) s') :
    report'.rounds = report.rounds + 1 := by
  have hends := round_ends oracle report s
  rw [hrun] at hends
  generalize hmore : true = more at hends
  cases hends with
  | idle => cases hmore
  | done =>
    have hgroups : _ = false := Bool.not_eq_eq_eq_not.mp hmore.symm
    simp [Report.merged, Report.asked, hgroups]

/-! ## Sessions -/

/-- A session leaves a sound graph. If it fails, a shorter one ends right before
the round that failed. -/
theorem rounds_keeps (oracle : Oracle σ) (limit : Nat) (report : Report) (h : s.graph.Sound) :
    Keeps s.graph (fun e s' => ∃ k < limit, ∃ report' s₁,
        EStateM.run (rounds oracle k report) s = .ok report' s₁ ∧
          report'.rounds = report.rounds + k ∧ RoundFails oracle s₁ s' e)
      (EStateM.run (rounds oracle limit report) s) := by
  -- a session and the shorter one begin with the same round, so the shorter one
  -- follows it up to where it fails
  induction limit generalizing s report with
  | zero => exact keeps_ok h (.refl _)
  | succ limit ih =>
    have hround := round_keeps oracle report h
    rw [rounds_succ]
    cases hrun : EStateM.run (round oracle report) s with
    | error e s' =>
      rw [hrun] at hround
      exact keeps_error hround.sound hround.grows
        ⟨0, Nat.succ_pos _, report, s, rfl, rfl, hround.error e s' rfl⟩
    | ok r s₁ =>
      rw [hrun] at hround
      obtain ⟨report₁, more⟩ := r
      cases more with
      | false => exact keeps_ok hround.sound hround.grows
      | true =>
        have hrest := ih (s := s₁) report₁ hround.sound
        refine ⟨hrest.sound, hround.grows.trans hrest.grows, fun e s' hfail => ?_⟩
        obtain ⟨k, hk, report', s₂, hk_run, hcount, hfails⟩ := hrest.error e s' hfail
        refine ⟨k + 1, Nat.succ_lt_succ hk, report', s₂, ?_, ?_, hfails⟩
        · rw [rounds_succ, hrun]
          exact hk_run
        · have hone := round_counts hrun
          omega

end Merging

end StateGraph
