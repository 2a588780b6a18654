-- A session can be broken off and taken up again. An oracle that goes by the terms alone
-- gives the answer that the log has, since the terms of nodes stay. So what a round finds
-- depends on the graph only, and a new session goes on as the old one would have.
import StateGraph.Proofs.CaseCoverage
import StateGraph.Proofs.DeclinedPairs

namespace StateGraph

/-- The oracle always decides, and by the two terms alone, whatever it remembers. -/
structure Oracle.ByTerms {σ : Type} (oracle : Oracle σ) (related : Term → Term → Bool)
    (guardOf : List Effect → Effect) : Prop where
  mergeable : ∀ a b m, ∃ m', (oracle.mergeable a b).run m = .ok (related a.term b.term) m'
  mergeGuards : ∀ guards m, ∃ m', (oracle.mergeGuards guards).run m = .ok (guardOf guards) m'

theorem Oracle.ByTerms.decides {σ : Type} {oracle : Oracle σ} {related : Term → Term → Bool}
    {guardOf : List Effect → Effect} (h : oracle.ByTerms related guardOf) : oracle.Decides where
  mergeable := by
    intro a b m e m' hrun
    obtain ⟨m'', hok⟩ := h.mergeable a b m
    rw [hok] at hrun
    cases hrun
  mergeGuards := by
    intro guards m e m' hrun
    obtain ⟨m'', hok⟩ := h.mergeGuards guards m
    rw [hok] at hrun
    cases hrun

/-- Two reports have been continued by the same groups, in as many rounds. -/
structure Report.SameGain (before after before' after' : Report) : Prop where
  groups : ∃ groups, after.groups = before.groups ++ groups ∧
    after'.groups = before'.groups ++ groups
  rounds : ∃ n, after.rounds = before.rounds + n ∧ after'.rounds = before'.rounds + n

theorem Report.SameGain.refl (r r' : Report) : Report.SameGain r r r' r' :=
  ⟨⟨[], by simp⟩, ⟨0, by simp⟩⟩

theorem Report.SameGain.trans {r₀ r₁ r₂ r₀' r₁' r₂' : Report} (h : SameGain r₀ r₁ r₀' r₁')
    (h' : SameGain r₁ r₂ r₁' r₂') : SameGain r₀ r₂ r₀' r₂' := by
  obtain ⟨⟨groups, hg, hg'⟩, n, hn, hn'⟩ := h
  obtain ⟨⟨more, hm, hm'⟩, m, hr, hr'⟩ := h'
  refine ⟨⟨groups ++ more, ?_, ?_⟩, n + m, ?_, ?_⟩
  · rw [hm, hg, List.append_assoc]
  · rw [hm', hg', List.append_assoc]
  · rw [hr, hn, Nat.add_assoc]
  · rw [hr', hn', Nat.add_assoc]

namespace Merging

variable {σ α β : Type}

/-! ## What is found goes by the graph -/

/-- Two branches go together if their terms do. -/
def connectBy (related : Term → Term → Bool) (found : Compatibility) (p : Branch × Branch) :
    Compatibility :=
  if related p.1.config.term p.2.config.term then found.connect p.1.node p.2.node else found

/-- The plan for a split, going by the terms of its branches. -/
def planBy (related : Term → Term → Bool) (set : BranchSet) : Plan where
  set := set
  cliques := ((pairs set.branches).foldl (connectBy related)
    (.ofVertices (set.branches.map (·.node)))).maximalCliques 2

/-- The plans of a round, going by the terms of the branches. -/
def plansBy (related : Term → Term → Bool) (g : Graph) : List Plan :=
  (g.branchSets.map (planBy related)).filter fun p => !p.cliques.isEmpty

/-- All answers of the log are those of the relation, on terms that the nodes still have. -/
def Truthful (related : Term → Term → Bool) (s : Session σ) : Prop :=
  ∀ q ∈ s.questions, Stands (fun a b => related a.term b.term) s.graph q

variable {oracle : Oracle σ} {related : Term → Term → Bool} {guardOf : List Effect → Effect}
  {s s' t : Session σ}

theorem Truthful.fresh (g : Graph) (m : σ) :
    Truthful related ({ graph := g, memory := m } : Session σ) := fun _ hq => by cases hq

theorem Truthful.of_same (hs : Truthful related s) (hlog : s'.questions = s.questions)
    (hterms : s.graph.KeepsTerms s'.graph) : Truthful related s' := by
  intro q hq
  have hq := hs q (hlog ▸ hq)
  exact ⟨hq.reply, hterms _ _ hq.first, hterms _ _ hq.second⟩

/-- The log and the oracle say the same of two branches. -/
theorem weigh_byTerms (hterms : oracle.ByTerms related guardOf) (h : s.graph.Sound)
    (hs : Truthful related s) {a b : Branch} (ha : s.graph.nodes.get? a.node = some a.config)
    (hb : s.graph.nodes.get? b.node = some b.config) (found : Compatibility × Nat) :
    ∃ n s', EStateM.run (weigh oracle found (a, b)) s =
        .ok (connectBy related found.1 (a, b), n) s' ∧
      s'.graph = s.graph ∧ Truthful related s' := by
  rw [weigh_run]
  cases hknown : known? s.questions a.node b.node with
  | some yes =>
    obtain ⟨q, hq, hreply, hfirst, hsecond⟩ := known?_eq_some hknown
    have hstands := hs q hq
    have hterm₁ : a.config.term = q.firstConfig.term := hstands.first.term _ (hfirst ▸ ha)
    have hterm₂ : b.config.term = q.secondConfig.term := hstands.second.term _ (hsecond ▸ hb)
    have hyes : yes = related a.config.term b.config.term := by
      rw [hterm₁, hterm₂]
      exact Except.ok.inj (hreply.symm.trans hstands.reply)
    exact ⟨found.2, s, by rw [hyes]; rfl, rfl, hs⟩
  | none =>
    obtain ⟨m, hans⟩ := hterms.mergeable a.config b.config s.memory
    refine ⟨found.2 + 1, s.noted a b (.ok (related a.config.term b.config.term)) m,
      by simp only [hans]; rfl, rfl, fun q hq => ?_⟩
    rcases List.mem_append.mp hq with hq | hq
    · exact hs q hq
    · rw [List.mem_singleton.mp hq]
      exact ⟨rfl, h.recalls ha, h.recalls hb⟩

theorem weigh_all_byTerms (hterms : oracle.ByTerms related guardOf) (h : s.graph.Sound)
    (hs : Truthful related s) {ps : List (Branch × Branch)}
    (hps : ∀ p ∈ ps, s.graph.nodes.get? p.1.node = some p.1.config ∧
      s.graph.nodes.get? p.2.node = some p.2.config) (found : Compatibility × Nat) :
    ∃ n s', EStateM.run (ps.foldlM (weigh oracle) found) s =
        .ok (ps.foldl (connectBy related) found.1, n) s' ∧
      s'.graph = s.graph ∧ Truthful related s' := by
  induction ps generalizing s found with
  | nil => exact ⟨found.2, s, rfl, rfl, hs⟩
  | cons p ps ih =>
    obtain ⟨ha, hb⟩ := hps p List.mem_cons_self
    obtain ⟨n, s₁, hrun, hgraph, hs₁⟩ := weigh_byTerms hterms h hs ha hb found
    obtain ⟨m, s₂, hruns, hgraph₂, hs₂⟩ := ih (s := s₁) (hgraph ▸ h) hs₁
      (hgraph ▸ fun q hq => hps q (List.mem_cons_of_mem _ hq)) (connectBy related found.1 p, n)
    refine ⟨m, s₂, ?_, hgraph₂.trans hgraph, hs₂⟩
    rw [List.foldlM_cons, EStateM.run_bind, hrun]
    exact hruns

theorem discover_byTerms (hterms : oracle.ByTerms related guardOf) (h : s.graph.Sound)
    (hs : Truthful related s) {set : BranchSet} {cases : Cases}
    (hq : Qualified s.graph set cases) :
    ∃ n s', EStateM.run (discover oracle set) s = .ok (planBy related set, n) s' ∧
      s'.graph = s.graph ∧ Truthful related s' := by
  have hps : ∀ p ∈ pairs set.branches, s.graph.nodes.get? p.1.node = some p.1.config ∧
      s.graph.nodes.get? p.2.node = some p.2.config := fun p hp =>
    (mem_of_mem_pairs hp).imp (fun ha => (hq.branch _ ha).config) fun hb => (hq.branch _ hb).config
  obtain ⟨n, s', hrun, hgraph, hs'⟩ := weigh_all_byTerms hterms h hs hps
    (.ofVertices (set.branches.map (·.node)), 0)
  refine ⟨n, s', ?_, hgraph, hs'⟩
  simp only [discover, compatibility, EStateM.run_bind, hrun]
  rfl

theorem discover_all_byTerms (hterms : oracle.ByTerms related guardOf) (h : s.graph.Sound)
    (hs : Truthful related s) {sets : List BranchSet}
    (hsets : ∀ set ∈ sets, ∃ cases, Qualified s.graph set cases) :
    ∃ found s', EStateM.run (sets.mapM (discover oracle)) s = .ok found s' ∧
      found.map (·.1) = sets.map (planBy related) ∧ s'.graph = s.graph ∧ Truthful related s' := by
  induction sets generalizing s with
  | nil => exact ⟨[], s, rfl, rfl, rfl, hs⟩
  | cons set sets ih =>
    obtain ⟨cases, hq⟩ := hsets set List.mem_cons_self
    obtain ⟨n, s₁, hrun, hgraph, hs₁⟩ := discover_byTerms hterms h hs hq
    obtain ⟨more, s₂, hruns, hplans, hgraph₂, hs₂⟩ := ih (s := s₁) (hgraph ▸ h) hs₁
      (hgraph ▸ fun other hother => hsets other (List.mem_cons_of_mem _ hother))
    refine ⟨(planBy related set, n) :: more, s₂, ?_, by simp [hplans], hgraph₂.trans hgraph, hs₂⟩
    rw [List.mapM_cons]
    simp only [EStateM.run_bind, hrun, hruns]
    rfl

/-- What a round finds it would have found without its log. -/
theorem round_finds (hterms : oracle.ByTerms related guardOf) (h : s.graph.Sound)
    (hs : Truthful related s) :
    ∃ found s', EStateM.run (s.graph.branchSets.mapM (discover oracle)) s = .ok found s' ∧
      plansOf found = plansBy related s.graph ∧ s'.graph = s.graph ∧ Truthful related s' := by
  obtain ⟨found, s', hrun, hplans, hrest⟩ :=
    discover_all_byTerms hterms h hs fun _ => Graph.qualified_of_mem
  exact ⟨found, s', hrun, by rw [plansOf, hplans, plansBy], hrest⟩

/-! ## What is carried out goes by the graph -/

/-- What a part of a session gives and leaves of the graph. -/
def onGraph : EStateM.Result Error (Session σ) α → EStateM.Result Error Graph α
  | .ok a s => .ok a s.graph
  | .error e s => .error e s.graph

theorem onGraph_eq_ok {r : EStateM.Result Error (Session σ) α} {a : α} {g : Graph} :
    onGraph r = .ok a g ↔ ∃ s, r = .ok a s ∧ s.graph = g := by
  cases r with
  | ok b s => simp [onGraph]
  | error e s => simp [onGraph]

/-- A part of a session does to equal graphs the same, whatever else the session has been
through. -/
def Steady (x : Merging σ α) : Prop :=
  ∀ s t, t.graph = s.graph → onGraph (EStateM.run x t) = onGraph (EStateM.run x s)

namespace Steady

theorem pure (a : α) : Steady (Pure.pure a : Merging σ α) := fun _ _ hgraph =>
  congrArg (EStateM.Result.ok a) hgraph

theorem bind {x : Merging σ α} {f : α → Merging σ β} (hx : Steady x) (hf : ∀ a, Steady (f a)) :
    Steady (x >>= f) := by
  intro s t hgraph
  have hxs := hx s t hgraph
  rw [EStateM.run_bind, EStateM.run_bind]
  cases hs : EStateM.run x s with
  | ok a s₁ =>
    rw [hs] at hxs
    obtain ⟨t₁, ht, hgraph₁⟩ := onGraph_eq_ok.mp hxs
    rw [ht]
    exact hf a s₁ t₁ hgraph₁
  | error e s₁ =>
    rw [hs] at hxs
    cases ht : EStateM.run x t with
    | ok a t₁ =>
      rw [ht] at hxs
      cases hxs
    | error e' t₁ =>
      rw [ht] at hxs
      obtain ⟨rfl, hgraph₁⟩ := EStateM.Result.error.inj hxs
      exact congrArg (EStateM.Result.error _) hgraph₁

/-- Only the graph may be looked at. -/
theorem get_bind {f : Session σ → Merging σ β} (hf : ∀ s, Steady (f s))
    (hgraph : ∀ s t, t.graph = s.graph → f t = f s) : Steady (get >>= f) := by
  intro s t heq
  have hst : EStateM.run (get >>= f) t = EStateM.run (f s) t := by
    rw [← hgraph s t heq]
    rfl
  rw [hst]
  exact hf s s t heq

theorem mapM {f : β → Merging σ α} {xs : List β} (hf : ∀ x ∈ xs, Steady (f x)) :
    Steady (xs.mapM f) := by
  induction xs with
  | nil => exact pure []
  | cons x xs ih =>
    rw [List.mapM_cons]
    exact (hf x List.mem_cons_self).bind fun y =>
      (ih fun z hz => hf z (List.mem_cons_of_mem _ hz)).bind fun ys => pure (y :: ys)

theorem ok {x : Merging σ α} (hx : Steady x) (hgraph : t.graph = s.graph) {a : α}
    (hrun : EStateM.run x s = .ok a s') :
    ∃ t', EStateM.run x t = .ok a t' ∧ t'.graph = s'.graph := by
  have hxs := hx s t hgraph
  rw [hrun] at hxs
  exact onGraph_eq_ok.mp hxs

end Steady

theorem steady_update (change : Update α) : Steady (update change : Merging σ α) := by
  intro s t hgraph
  rw [update_run, update_run, hgraph]
  cases change.run s.graph <;> rfl

theorem steady_guards (hterms : oracle.ByTerms related guardOf) (guards : List Effect) :
    Steady (consult (oracle.mergeGuards guards)) := by
  intro s t hgraph
  obtain ⟨m, hm⟩ := hterms.mergeGuards guards s.memory
  obtain ⟨m', hm'⟩ := hterms.mergeGuards guards t.memory
  rw [consult_run, consult_run, hm, hm']
  exact congrArg (EStateM.Result.ok _) hgraph

theorem steady_carryOutIfCurrent (hterms : oracle.ByTerms related guardOf) (p : Plan) :
    Steady (carryOutIfCurrent oracle p) := by
  have hprepare : ∀ c ∈ p.cliques, Steady (prepare oracle p.set c) := fun c _ =>
    (steady_update _).bind fun _ => (steady_guards hterms _).bind fun _ => .pure _
  have hcarry : Steady (carryOut oracle p) := by
    unfold carryOut
    refine .get_bind (fun s => (steady_update _).bind fun config => ?_) fun s t hgraph => by
      rw [hgraph]
    split
    · exact (steady_update _).bind fun bs => (steady_update _).bind fun r => .pure _
    · exact (Steady.mapM hprepare).bind fun parts => steady_update _
  refine .get_bind (fun s => ?_) fun s t hgraph => by rw [hgraph]
  split
  · exact hcarry
  · exact .pure []

/-! ## Rounds -/

/-- Two sessions have come to one graph, and their logs are true of it. -/
structure Twins (related : Term → Term → Bool) (s t : Session σ) : Prop where
  sound : s.graph.Sound
  truthful : Truthful related s
  truthful' : Truthful related t
  graph : t.graph = s.graph

theorem round_truthful (hterms : oracle.ByTerms related guardOf) (h : s.graph.Sound)
    (hs : Truthful related s) {report : Report} {r : Report × Bool}
    (hrun : EStateM.run (round oracle report) s = .ok r s') : Truthful related s' := by
  obtain ⟨found, s₁, hfound, -, hgraph, hs₁⟩ := round_finds hterms h hs
  have hkeeps := round_keepsTerms oracle h report
  have hlog := round_log oracle report s
  rw [hrun] at hkeeps hlog
  rw [hfound] at hlog
  exact hs₁.of_same hlog (hgraph ▸ hkeeps)

/-- A round goes the same in both of two sessions. -/
theorem round_same (hterms : oracle.ByTerms related guardOf) (h : Twins related s t)
    {report r : Report} {more : Bool}
    (hrun : EStateM.run (round oracle report) s = .ok (r, more) s') (report' : Report) :
    ∃ r' t', EStateM.run (round oracle report') t = .ok (r', more) t' ∧ Twins related s' t' ∧
      Report.SameGain report r report' r' := by
  have hkeeps := round_keeps oracle report h.sound
  rw [hrun] at hkeeps
  have hsoundt : t.graph.Sound := h.graph ▸ h.sound
  obtain ⟨found, s₁, hfound, hplans, hgraph₁, -⟩ := round_finds hterms h.sound h.truthful
  obtain ⟨found', t₁, hfound', hplans', hgraph₁', -⟩ := round_finds hterms hsoundt h.truthful'
  have hsame : plansOf found' = plansOf found := by rw [hplans', hplans, h.graph]
  suffices hround : ∃ r' t', EStateM.run (round oracle report') t = .ok (r', more) t' ∧
      t'.graph = s'.graph ∧ Report.SameGain report r report' r' by
    obtain ⟨r', t', hrun', hgraph, hgain⟩ := hround
    exact ⟨r', t', hrun', ⟨hkeeps.sound, round_truthful hterms h.sound h.truthful hrun,
      round_truthful hterms hsoundt h.truthful' hrun', hgraph⟩, hgain⟩
  have hends := round_ends oracle report s
  rw [hrun] at hends
  cases hends with
  | idle hidle hnothing =>
    rw [hfound] at hidle
    cases hidle
    refine ⟨_, t₁, round_idle hfound' (hsame.trans hnothing), ?_, ⟨⟨[], ?_, ?_⟩, ⟨0, ?_, ?_⟩⟩⟩
    · rw [hgraph₁', hgraph₁, h.graph]
    all_goals simp [Report.asked]
  | @done _ _ s₂ _ groups n hdone hcarried hsettled hsome =>
    rw [hfound] at hdone
    cases hdone
    have hcarry : Steady ((plansOf found).mapM (carryOutIfCurrent oracle)) :=
      .mapM fun p _ => steady_carryOutIfCurrent hterms p
    have hgraph : t₁.graph = s₁.graph := hgraph₁'.trans (h.graph.trans hgraph₁.symm)
    obtain ⟨t₂, hcarried', hgraph₂⟩ := hcarry.ok hgraph hcarried
    obtain ⟨t₃, hsettled', hgraph₃⟩ := (steady_update _).ok hgraph₂ hsettled
    rw [← hsame] at hcarried' hsome
    refine ⟨_, t₃, round_done hfound' hcarried' hsettled' hsome, hgraph₃, ⟨groups.flatten, ?_, ?_⟩,
      ⟨if groups.flatten.isEmpty then 0 else 1, ?_, ?_⟩⟩
    all_goals rfl

/-- Two sessions with one graph go on in the same way, as far as they are let. -/
theorem rounds_same (hterms : oracle.ByTerms related guardOf) (h : Twins related s t) (limit : Nat)
    (report report' : Report) :
    ∃ r s' r' t', EStateM.run (rounds oracle limit report) s = .ok r s' ∧
      EStateM.run (rounds oracle limit report') t = .ok r' t' ∧ Twins related s' t' ∧
      Report.SameGain report r report' r' := by
  induction limit generalizing s t report report' with
  | zero => exact ⟨report, s, report', t, rfl, rfl, h, .refl _ _⟩
  | succ limit ih =>
    obtain ⟨r, s', hrun⟩ := rounds_ok hterms.decides h.sound (limit + 1) report
    cases hround : EStateM.run (round oracle report) s with
    | error e s₁ =>
      rw [rounds_succ, hround] at hrun
      cases hrun
    | ok r₁ s₁ =>
      obtain ⟨r₁, more⟩ := r₁
      obtain ⟨r₁', t₁, hround', h₁, hgain⟩ := round_same hterms h hround report'
      rw [rounds_succ, rounds_succ, hround, hround']
      cases more with
      | false => exact ⟨r₁, s₁, r₁', t₁, rfl, rfl, h₁, hgain⟩
      | true =>
        obtain ⟨r, s', r', t', hs', ht', h', hmore⟩ := ih h₁ r₁ r₁'
        exact ⟨r, s', r', t', hs', ht', h', hgain.trans hmore⟩

/-! ## Sessions broken off -/

/-- The last round of a session that stops by itself is not counted. -/
theorem round_uncounted {report r : Report}
    (hrun : EStateM.run (round oracle report) s = .ok (r, false) s') : r.rounds = report.rounds := by
  have hends := round_ends oracle report s
  rw [hrun] at hends
  generalize hmore : false = more at hends
  cases hends with
  | idle => rfl
  | done =>
    have hgroups : _ = true := Bool.not_eq_eq_eq_not.mp hmore.symm
    simp [Report.merged, Report.asked, hgroups]

/-- A session is a shorter one, and then the rounds that are left, unless the shorter one
has stopped by itself. -/
theorem rounds_add {a b : Nat} {report r : Report}
    (hrun : EStateM.run (rounds oracle a report) s = .ok r s') :
    EStateM.run (rounds oracle (a + b) report) s =
      if r.rounds < report.rounds + a then .ok r s' else EStateM.run (rounds oracle b r) s' := by
  induction a generalizing s report with
  | zero =>
    cases hrun
    simp
  | succ a ih =>
    rw [Nat.succ_add, rounds_succ]
    rw [rounds_succ] at hrun
    cases hround : EStateM.run (round oracle report) s with
    | error e s₁ =>
      rw [hround] at hrun
      cases hrun
    | ok r₁ s₁ =>
      rw [hround] at hrun
      obtain ⟨r₁, more⟩ := r₁
      cases more with
      | false =>
        cases hrun
        have hcount := round_uncounted hround
        rw [if_pos (by omega)]
      | true =>
        have hcount := round_counts hround
        have hlimit : r₁.rounds + a = report.rounds + (a + 1) := by omega
        rw [← hlimit]
        exact ih hrun

/-- A session that stops before its limit has found nothing to merge. -/
theorem rounds_stop_idle (hterms : oracle.ByTerms related guardOf) (h : s.graph.Sound)
    (hs : Truthful related s) {limit : Nat} {report r : Report}
    (hrun : EStateM.run (rounds oracle limit report) s = .ok r s')
    (hlimit : r.rounds < report.rounds + limit) : plansBy related s'.graph = [] := by
  induction limit generalizing s report with
  | zero =>
    cases hrun
    exact absurd hlimit (Nat.lt_irrefl _)
  | succ limit ih =>
    rw [rounds_succ] at hrun
    cases hround : EStateM.run (round oracle report) s with
    | error e s₁ =>
      rw [hround] at hrun
      cases hrun
    | ok r₁ s₁ =>
      have hkeeps := round_keeps oracle report h
      have hs₁ := round_truthful hterms h hs hround
      rw [hround] at hrun hkeeps
      obtain ⟨r₁, more⟩ := r₁
      cases more with
      | true =>
        refine ih hkeeps.sound hs₁ hrun ?_
        rw [round_counts hround]
        omega
      | false =>
        cases hrun
        obtain ⟨found, hfound, hnothing, -⟩ := round_stops h hround
        obtain ⟨found', s₂, hfound', hplans, hgraph, -⟩ := round_finds hterms h hs
        rw [hfound] at hfound'
        cases hfound'
        rw [hgraph, ← hplans, hnothing]

/-- Where nothing is to be merged, a session changes nothing. -/
theorem rounds_idle (hterms : oracle.ByTerms related guardOf) (h : s.graph.Sound)
    (hs : Truthful related s) (hidle : plansBy related s.graph = []) (limit : Nat)
    (report : Report) :
    ∃ r s', EStateM.run (rounds oracle limit report) s = .ok r s' ∧ s'.graph = s.graph ∧
      r.groups = report.groups ∧ r.rounds = report.rounds := by
  cases limit with
  | zero => exact ⟨report, s, rfl, rfl, rfl, rfl⟩
  | succ limit =>
    obtain ⟨found, s', hfound, hplans, hgraph, -⟩ := round_finds hterms h hs
    refine ⟨report.asked found, s', ?_, hgraph, rfl, rfl⟩
    rw [rounds_succ, round_idle hfound (hplans.trans hidle)]

end Merging

open Merging

/-- Merging can be taken up again. With an oracle that always decides, and by the terms alone,
a session and then another come to what one session with the rounds of both comes to: the
graph, the groups and the count of rounds are the same. And where a session has stopped
before its limit, no further one changes anything. -/
theorem Reachable.merging_resumes {g : Graph} (h : Reachable g) {σ : Type} {oracle : Oracle σ}
    {related : Term → Term → Bool} {guardOf : List Effect → Effect}
    (hterms : oracle.ByTerms related guardOf) (a b : Nat) (m m' m'' : σ) :
    ∃ r₁ s₁ r₂ s₂ r s,
      EStateM.run (Merging.run oracle a) { graph := g, memory := m } = .ok r₁ s₁ ∧
      EStateM.run (Merging.run oracle b) { graph := s₁.graph, memory := m' } = .ok r₂ s₂ ∧
      EStateM.run (Merging.run oracle (a + b)) { graph := g, memory := m'' } = .ok r s ∧
      s.graph = s₂.graph ∧ r.groups = r₁.groups ++ r₂.groups ∧ r.rounds = r₁.rounds + r₂.rounds ∧
      (r₁.rounds < a → ∀ limit memory, ∃ again s₃,
        EStateM.run (Merging.run oracle limit) { graph := s₁.graph, memory } = .ok again s₃ ∧
        s₃.graph = s₁.graph ∧ again.groups = [] ∧ again.rounds = 0) := by
  let start : σ → Graph → Session σ := fun memory g => { graph := g, memory }
  have hstart : Twins related (start m g) (start m'' g) :=
    ⟨h.sound, .fresh g m, .fresh g m'', rfl⟩
  obtain ⟨r₁, s₁, r₁', t₁, hrun₁, hrun₁', htwins, ⟨groups, hgroups, hgroups'⟩, n, hn, hn'⟩ :=
    rounds_same hterms hstart a {} {}
  have hcount : r₁.rounds = r₁'.rounds := hn.trans hn'.symm
  have hwhole := rounds_add (b := b) hrun₁'
  have hstill : r₁.rounds < a → ∀ limit memory, ∃ again s₃,
      EStateM.run (Merging.run oracle limit) (start memory s₁.graph) = .ok again s₃ ∧
      s₃.graph = s₁.graph ∧ again.groups = [] ∧ again.rounds = 0 := by
    intro hlt limit memory
    have hidle := rounds_stop_idle hterms h.sound (.fresh g m) hrun₁
      (hlt.trans_eq (Nat.zero_add a).symm)
    exact rounds_idle (s := start memory s₁.graph) hterms htwins.sound (.fresh _ _) hidle limit {}
  by_cases hlt : r₁.rounds < a
  · -- the first part has stopped, so the second finds nothing and the whole has no more rounds
    obtain ⟨r₂, s₂, hrun₂, hgraph₂, hgroups₂, hrounds₂⟩ := hstill hlt b m'
    rw [if_pos (by rw [← hcount, Nat.zero_add]; exact hlt)] at hwhole
    refine ⟨r₁, s₁, r₂, s₂, r₁', t₁, hrun₁, hrun₂, hwhole, ?_, ?_, ?_, hstill⟩
    · rw [htwins.graph, hgraph₂]
    · rw [hgroups₂, List.append_nil, hgroups, hgroups']
    · omega
  · rw [if_neg (by rw [← hcount, Nat.zero_add]; exact hlt)] at hwhole
    have hsecond : Twins related t₁ (start m' s₁.graph) :=
      ⟨htwins.graph ▸ htwins.sound, htwins.truthful', .fresh _ _, htwins.graph.symm⟩
    obtain ⟨r, s, r₂, s₂, hrun, hrun₂, htwins₂, ⟨more, hmore, hmore₂⟩, k, hk, hk₂⟩ :=
      rounds_same hterms hsecond b r₁' {}
    refine ⟨r₁, s₁, r₂, s₂, r, s, hrun₁, hrun₂, hwhole.trans hrun, htwins₂.graph.symm, ?_, ?_,
      hstill⟩
    · rw [hmore, hmore₂, hgroups, hgroups', List.nil_append, List.nil_append]
    · rw [hk, hk₂, hcount, Nat.zero_add]

theorem merging_resumes_overlap :
    let oracle : Oracle Unit := { mergeable := apartXZ }
    let g := Graph.empty.afterAll overlap
    ∃ r₁ s₁ r₂ s₂ r s,
      EStateM.run (Merging.run oracle 1) { graph := g, memory := () } = .ok r₁ s₁ ∧
      EStateM.run (Merging.run oracle 1) { graph := s₁.graph, memory := () } = .ok r₂ s₂ ∧
      EStateM.run (Merging.run oracle 2) { graph := g, memory := () } = .ok r s ∧
      s.graph = s₂.graph ∧ r.groups = r₁.groups ++ r₂.groups ∧ r₁.rounds = 1 ∧ r₂.rounds = 1 := by
  intro oracle g
  have hterms : oracle.ByTerms (fun a b => !(a == .var "X" && b == .var "Z")) anyOf :=
    ⟨fun _ _ m => ⟨m, rfl⟩, fun _ m => ⟨m, rfl⟩⟩
  obtain ⟨r₁, s₁, r₂, s₂, r, s, hrun₁, hrun₂, hrun, hgraph, hgroups, hrounds, -⟩ :=
    reachable_overlap.merging_resumes hterms 1 1 () () ()
  obtain ⟨r₁', s₁', hrun₁', hone⟩ := exists_ok_of_endsWith (p := fun r : Report => r.rounds == 1)
    (r := EStateM.run (Merging.run oracle 1) { graph := g, memory := () }) (by decide +kernel)
  obtain ⟨r', s', hrun', htwo⟩ := exists_ok_of_endsWith (p := fun r : Report => r.rounds == 2)
    (r := EStateM.run (Merging.run oracle (1 + 1)) { graph := g, memory := () }) (by decide +kernel)
  rw [hrun₁] at hrun₁'
  rw [hrun] at hrun'
  cases hrun₁'
  cases hrun'
  have hone : r₁.rounds = 1 := beq_iff_eq.mp hone
  have htwo : r.rounds = 2 := beq_iff_eq.mp htwo
  exact ⟨r₁, s₁, r₂, s₂, r, s, hrun₁, hrun₂, hrun, hgraph, hgroups, hone, by omega⟩

end StateGraph
