-- Sessions with a pool of workers. The workers find what one finds alone, so a session
-- ends the same with a pool and without, unless a question fails: then both stop in the
-- same round, before it has changed anything, if perhaps on different questions.
import StateGraph.Proofs.Rounds

namespace StateGraph

namespace Merging

variable {σ α β : Type} {s s₁ : Session σ}

/-! ## Outcomes -/

theorem observing_run (x : Merging σ α) (s : Session σ) :
    EStateM.run (observing x) s = match EStateM.run x s with
      | .ok a s' => .ok (.ok a) s'
      | .error e s' => .ok (.error e) s' := by
  simp only [observing, tryCatch, tryCatchThe, MonadExceptOf.tryCatch, EStateM.run, EStateM.tryCatch,
    bind, EStateM.bind]
  cases x s <;> rfl

/-- The outcomes of tasks are their results as long as none of them fails. The first
error that stops them when they are worked off one by one is among the outcomes. -/
theorem outcomes_run (f : β → Merging σ α) (xs : List β) (s : Session σ) :
    ∃ outcomes s₂, EStateM.run (xs.mapM fun x => observing (f x)) s = .ok outcomes s₂ ∧
      (∀ results s₁, EStateM.run (xs.mapM f) s = .ok results s₁ →
        outcomes = results.map .ok ∧ s₂ = s₁) ∧
      ∀ e s₁, EStateM.run (xs.mapM f) s = .error e s₁ → .error e ∈ outcomes := by
  induction xs generalizing s with
  | nil =>
    refine ⟨[], s, rfl, ?_, nofun⟩
    rintro results s₁ ⟨⟩
    exact ⟨rfl, rfl⟩
  | cons x xs ih =>
    simp only [List.mapM_cons, EStateM.run_bind, observing_run]
    cases hx : EStateM.run (f x) s with
    | error e s' =>
      obtain ⟨outcomes, s₂, hrun, -, -⟩ := ih s'
      simp only [hrun]
      refine ⟨.error e :: outcomes, s₂, rfl, nofun, ?_⟩
      rintro e' s₁ ⟨⟩
      exact List.mem_cons_self
    | ok a s' =>
      obtain ⟨outcomes, s₂, hrun, hok, herror⟩ := ih s'
      simp only [hrun]
      refine ⟨.ok a :: outcomes, s₂, rfl, ?_⟩
      cases hxs : EStateM.run (xs.mapM f) s' with
      | error e s'' =>
        refine ⟨nofun, ?_⟩
        rintro e' s₁ ⟨⟩
        exact List.mem_cons_of_mem _ (herror e s'' hxs)
      | ok more s'' =>
        obtain ⟨rfl, rfl⟩ := hok more s'' hxs
        refine ⟨?_, nofun⟩
        rintro results s₁ ⟨⟩
        exact ⟨rfl, rfl⟩

theorem quiet_observing {P : α → Prop} {Q R : Error → Prop} {x : Merging σ α} (h : Quiet P Q x) :
    Quiet (fun o => ∀ e, o = .error e → Q e) R (observing x) := by
  intro s
  have hs := h s
  rw [observing_run]
  cases hrun : EStateM.run x s with
  | ok a s' =>
    rw [hrun] at hs
    exact ⟨hs.1, fun e he => by cases he⟩
  | error e s' =>
    rw [hrun] at hs
    exact ⟨hs.1, fun e' he => by cases he; exact hs.2⟩

theorem quiet_outcomes {P : β → α → Prop} {Q R : Error → Prop} {f : β → Merging σ α} {xs : List β}
    (h : ∀ x ∈ xs, Quiet (P x) Q (f x)) :
    Quiet (fun outcomes => ∀ e, .error e ∈ outcomes → Q e) R
      (xs.mapM fun x => observing (f x)) := by
  refine (Quiet.mapM fun x hx => quiet_observing (h x hx)).imp ?_ fun _ => id
  intro outcomes houtcomes e he
  obtain ⟨x, -, hx⟩ := BranchSet.exists_mem_of_forall₂ houtcomes he
  exact hx e rfl

/-! ## Finding cliques at once -/

/-- Two ends of one part of a session: the same end, or both on errors that `Q` holds of,
with the graph left alone. -/
inductive Alike (Q : Error → Prop) (g : Graph) :
    EStateM.Result Error (Session σ) α → EStateM.Result Error (Session σ) α → Prop
  | same (r : EStateM.Result Error (Session σ) α) : Alike Q g r r
  | failed {e e' : Error} {s s' : Session σ} (fails : Q e) (fails' : Q e') (graph : s.graph = g)
      (graph' : s'.graph = g) : Alike Q g (.error e s) (.error e' s')

variable {oracle : Oracle σ} {options : Options} {pool : Pool}

theorem discoverAtOnce_alike (pool : Pool) (oracle : Oracle σ) (sets : List BranchSet)
    (s : Session σ) :
    Alike (fun e => ∃ set ∈ sets, AskFails oracle set e) s.graph
      (EStateM.run (sets.mapM (discover oracle)) s)
      (EStateM.run (discoverAtOnce pool oracle sets) s) := by
  have hquiet := quiet_outcomes (Q := fun e => ∃ set ∈ sets, AskFails oracle set e)
    (R := fun _ => False) fun set hset =>
      (quiet_discover oracle set).imp (fun _ => id) fun e he => ⟨set, hset, he⟩
  obtain ⟨outcomes, s₂, hrun, hok, herror⟩ := outcomes_run (discover oracle) sets s
  obtain ⟨hgraph, hfails⟩ := hquiet.ok hrun
  unfold discoverAtOnce
  rw [EStateM.run_bind, hrun]
  cases hone : EStateM.run (sets.mapM (discover oracle)) s with
  | ok found s₁ =>
    obtain ⟨rfl, rfl⟩ := hok found s₁ hone
    simp only [pool.collect_ok]
    exact .same _
  | error e s₁ =>
    have hmem := herror e s₁ hone
    obtain ⟨e', hmem', hcollect⟩ := pool.collect_error hmem
    simp only [hcollect]
    have halone := (discover_all oracle sets) s
    rw [hone] at halone
    exact .failed (hfails e hmem) (hfails e' hmem') halone.1 hgraph

theorem discoverAll_alike (options : Options) (pool : Pool) (oracle : Oracle σ)
    (sets : List BranchSet) (s : Session σ) :
    Alike (fun e => ∃ set ∈ sets, AskFails oracle set e) s.graph
      (EStateM.run (sets.mapM (discover oracle)) s)
      (EStateM.run (discoverAll options pool oracle sets) s) := by
  unfold discoverAll
  split
  · exact discoverAtOnce_alike pool oracle sets s
  · exact .same _

theorem Alike.ok_iff {Q : Error → Prop} {g : Graph} {r r' : EStateM.Result Error (Session σ) α}
    (h : Alike Q g r r') {a : α} : r' = .ok a s ↔ r = .ok a s := by
  cases h with
  | same => exact Iff.rfl
  | failed => exact iff_of_false nofun nofun

/-! ## Rounds and sessions -/

theorem round_alike (options : Options) (pool : Pool) (oracle : Oracle σ) (report : Report)
    (s : Session σ) :
    Alike (fun e => ∃ set ∈ s.graph.branchSets, AskFails oracle set e) s.graph
      (EStateM.run (round oracle report) s)
      (EStateM.run (roundBy (discoverAll options pool oracle) oracle report) s) := by
  have hfind := discoverAll_alike options pool oracle s.graph.branchSets s
  unfold round
  simp only [roundBy, EStateM.run_bind, EStateM.run_get]
  generalize EStateM.run (s.graph.branchSets.mapM (discover oracle)) s = r at hfind ⊢
  generalize EStateM.run (discoverAll options pool oracle s.graph.branchSets) s = r' at hfind ⊢
  cases hfind with
  | same => exact .same _
  | failed fails fails' graph graph' => exact .failed fails fails' graph graph'

/-- Two sessions end alike: the same, or both on a question of one round, before which
they have done the same. -/
inductive EndAlike (oracle : Oracle σ) (limit : Nat) (report : Report) (s : Session σ) :
    EStateM.Result Error (Session σ) Report → EStateM.Result Error (Session σ) Report → Prop
  | same (r : EStateM.Result Error (Session σ) Report) : EndAlike oracle limit report s r r
  | asking {k : Nat} {report₁ : Report} {s₁ s' s'' : Session σ} {e e' : Error} (lt : k < limit)
      (before : EStateM.run (rounds oracle k report) s = .ok report₁ s₁)
      (count : report₁.rounds = report.rounds + k)
      (fails : ∃ set ∈ s₁.graph.branchSets, AskFails oracle set e)
      (fails' : ∃ set ∈ s₁.graph.branchSets, AskFails oracle set e')
      (graph : s'.graph = s₁.graph) (graph' : s''.graph = s₁.graph) :
      EndAlike oracle limit report s (.error e s') (.error e' s'')

/-- A session with a pool ends like the one without. -/
theorem rounds_alike (options : Options) (pool : Pool) (oracle : Oracle σ) (limit : Nat)
    (report : Report) (s : Session σ) :
    EndAlike oracle limit report s (EStateM.run (rounds oracle limit report) s)
      (EStateM.run (roundsBy (discoverAll options pool oracle) oracle limit report) s) := by
  induction limit generalizing report s with
  | zero => exact .same _
  | succ limit ih =>
    have hround := round_alike options pool oracle report s
    rw [rounds_succ, roundsBy_succ]
    generalize hone : EStateM.run (round oracle report) s = r at hround
    generalize EStateM.run (roundBy (discoverAll options pool oracle) oracle report) s = r' at hround
    cases hround with
    | failed fails fails' graph graph' =>
      exact .asking (Nat.succ_pos _) rfl rfl fails fails' graph graph'
    | same =>
      cases r with
      | error e s' => exact .same _
      | ok result s₁ =>
        obtain ⟨report₁, more⟩ := result
        cases more with
        | false => exact .same _
        | true =>
          have hrest := ih report₁ s₁
          simp only
          generalize EStateM.run (rounds oracle limit report₁) s₁ = r at hrest
          generalize EStateM.run (roundsBy (discoverAll options pool oracle) oracle limit report₁)
            s₁ = r' at hrest
          cases hrest with
          | same => exact .same _
          | @asking k report₂ s₂ _ _ _ _ lt before count fails fails' graph graph' =>
            have hbefore : EStateM.run (rounds oracle (k + 1) report) s = .ok report₂ s₂ := by
              rw [rounds_succ, hone]
              exact before
            have hcount := round_counts hone
            exact .asking (Nat.succ_lt_succ lt) hbefore (by omega) fails fails' graph graph'

/-- A session with a pool ends well exactly if the one without does, and with the same. -/
theorem runWith_ok_iff {report : Report} {s' : Session σ} :
    EStateM.run (runWith options pool oracle) s = .ok report s' ↔
      EStateM.run (run oracle options.roundLimit) s = .ok report s' := by
  have halike := rounds_alike options pool oracle options.roundLimit {} s
  unfold runWith run
  generalize EStateM.run (rounds oracle options.roundLimit {}) s = r at halike ⊢
  generalize EStateM.run (roundsBy (discoverAll options pool oracle) oracle options.roundLimit {})
    s = r' at halike ⊢
  cases halike with
  | same => exact Iff.rfl
  | asking => exact iff_of_false nofun nofun

/-- However a session with a pool ends, one without a pool leaves the same graph. -/
theorem runWith_graph (options : Options) (pool : Pool) (oracle : Oracle σ) (s : Session σ) :
    ∃ limit ≤ options.roundLimit, (stateOf (EStateM.run (runWith options pool oracle) s)).graph =
      (stateOf (EStateM.run (run oracle limit) s)).graph := by
  have halike := rounds_alike options pool oracle options.roundLimit {} s
  unfold runWith run
  generalize hone : EStateM.run (rounds oracle options.roundLimit {}) s = r at halike
  generalize EStateM.run (roundsBy (discoverAll options pool oracle) oracle options.roundLimit {})
    s = r' at halike ⊢
  cases halike with
  | same => exact ⟨options.roundLimit, Nat.le_refl _, by rw [hone]⟩
  | @asking k _ _ _ _ _ _ lt before _ _ _ _ graph' =>
    exact ⟨k, Nat.le_of_lt lt, by rw [before]; exact graph'⟩

theorem discoverAll_ok_iff {sets : List BranchSet} {found : List (Plan × Nat)} :
    EStateM.run (discoverAll options pool oracle sets) s = .ok found s₁ ↔
      EStateM.run (sets.mapM (discover oracle)) s = .ok found s₁ :=
  (discoverAll_alike options pool oracle sets s).ok_iff

/-- A session leaves a sound graph whatever its options are. If it fails, one of fewer
rounds ends right before the round that failed. -/
theorem runWith_keeps (options : Options) (pool : Pool) (oracle : Oracle σ) (h : s.graph.Sound) :
    Keeps s.graph (fun e s' => ∃ k < options.roundLimit, ∃ report s₁,
        EStateM.run (run oracle k) s = .ok report s₁ ∧ report.rounds = k ∧
          RoundFails oracle s₁ s' e)
      (EStateM.run (runWith options pool oracle) s) := by
  have hkeeps := rounds_keeps oracle options.roundLimit {} h
  have halike := rounds_alike options pool oracle options.roundLimit {} s
  unfold runWith
  generalize EStateM.run (rounds oracle options.roundLimit {}) s = r at hkeeps halike
  generalize EStateM.run (roundsBy (discoverAll options pool oracle) oracle options.roundLimit {})
    s = r' at halike ⊢
  cases halike with
  | same =>
    refine hkeeps.imp fun e s' hfails => ?_
    obtain ⟨k, hk, report, s₁, hrun, hcount, hround⟩ := hfails
    exact ⟨k, hk, report, s₁, hrun, hcount.trans (Nat.zero_add k), hround⟩
  | @asking k _ _ _ _ _ _ lt before count fails fails' graph graph' =>
    obtain ⟨set, hset, hask⟩ := fails'
    have hbefore := rounds_keeps oracle k {} h
    rw [before] at hbefore
    exact keeps_error (graph' ▸ hbefore.sound) (graph' ▸ hbefore.grows)
      ⟨k, lt, _, _, before, count.trans (Nat.zero_add k), .asking set hset hask graph'⟩

end Merging

end StateGraph
