-- The plans that a session carries out, each with the graphs right before and
-- right after it. What holds across every one of them, and across bringing path
-- conditions up to date, holds across the session.
import StateGraph.Proofs.Rounds

namespace StateGraph

namespace Merging

variable {σ : Type} {oracle : Oracle σ} {p : Plan} {groups : List Group}

/-- Among plans of a round a plan is carried out: those before it have had their
turn, and its split still is what it was made for. -/
inductive Turn (oracle : Oracle σ) (p : Plan) (groups : List Group) (s₁ s₂ : Session σ) :
    Session σ → List Plan → Prop
  | now {plans : List Plan} (current : s₁.graph.branchSet? p.set.source = some p.set)
      (carried : EStateM.run (carryOut oracle p) s₁ = .ok groups s₂) :
      Turn oracle p groups s₁ s₂ s₁ (p :: plans)
  | later {s s' : Session σ} {q : Plan} {plans : List Plan} {others : List Group}
      (before : EStateM.run (carryOutIfCurrent oracle q) s = .ok others s')
      (rest : Turn oracle p groups s₁ s₂ s' plans) : Turn oracle p groups s₁ s₂ s (q :: plans)

/-- A session of at most so many rounds carries a plan out, in its first round or
in a later one, whether the session then ends well or not. -/
inductive CarriedIn (oracle : Oracle σ) (p : Plan) (groups : List Group) (g g' : Graph) :
    Nat → Session σ → Prop
  | now {limit : Nat} {s s₁ s₂ s₃ : Session σ} {found : List (Plan × Nat)}
      (discovered : EStateM.run (s.graph.branchSets.mapM (discover oracle)) s = .ok found s₁)
      (turn : Turn oracle p groups s₂ s₃ s₁ (plansOf found)) (before : s₂.graph = g)
      (after : s₃.graph = g') : CarriedIn oracle p groups g g' (limit + 1) s
  | later {limit : Nat} {s s' : Session σ} {report report' : Report}
      (round : EStateM.run (round oracle report) s = .ok (report', true) s')
      (rest : CarriedIn oracle p groups g g' limit s') :
      CarriedIn oracle p groups g g' (limit + 1) s

/-! ## Plans carried out -/

/-- What a turn does: nothing, or its plan is carried out. -/
theorem carryOutIfCurrent_ok {s s' : Session σ}
    (hrun : EStateM.run (carryOutIfCurrent oracle p) s = .ok groups s') :
    (s.graph.branchSet? p.set.source ≠ some p.set ∧ groups = [] ∧ s' = s) ∨
      (s.graph.branchSet? p.set.source = some p.set ∧
        EStateM.run (carryOut oracle p) s = .ok groups s') := by
  unfold carryOutIfCurrent at hrun
  simp only [EStateM.run_bind, EStateM.run_get] at hrun
  split at hrun
  · rename_i hcurrent
    exact Or.inr ⟨hcurrent, hrun⟩
  · rename_i hcurrent
    cases hrun
    exact Or.inl ⟨hcurrent, rfl, rfl⟩

/-- A plan that went through for a split as it was found has been carried out in full. -/
theorem constructs_of_run {s s' : Session σ} (h : s.graph.Sound) (hp : p.Fits)
    (hne : p.cliques ≠ []) (hcurrent : s.graph.branchSet? p.set.source = some p.set)
    (hrun : EStateM.run (carryOut oracle p) s = .ok groups s') :
    ∃ paths config, Constructs oracle p groups s.graph s'.graph paths config := by
  obtain ⟨-, cases, hq⟩ := Graph.branchSet?_eq_some hcurrent
  rcases carryOut_constructs oracle h hq hp hne with ⟨groups', s₁, paths, config, hrun', hmade⟩ |
    ⟨e, s₁, hrun', -⟩
  · rw [hrun] at hrun'
    cases hrun'
    exact ⟨paths, config, hmade⟩
  · rw [hrun] at hrun'
    cases hrun'

theorem carried_of_run {s s' : Session σ} (h : s.graph.Sound) (hp : p.Fits) (hne : p.cliques ≠ [])
    (hcurrent : s.graph.branchSet? p.set.source = some p.set)
    (hrun : EStateM.run (carryOut oracle p) s = .ok groups s') :
    Carried p groups s.graph s'.graph := by
  obtain ⟨paths, config, hmade⟩ := constructs_of_run h hp hne hcurrent hrun
  exact hmade.carried

theorem Turn.run {s s₁ s₂ : Session σ} {plans : List Plan}
    (ht : Turn oracle p groups s₁ s₂ s plans) :
    EStateM.run (carryOut oracle p) s₁ = .ok groups s₂ := by
  induction ht with
  | now _ hrun => exact hrun
  | later _ _ ih => exact ih

theorem Turn.constructs {s s₁ s₂ : Session σ} {plans : List Plan}
    (ht : Turn oracle p groups s₁ s₂ s plans) (h : s.graph.Sound)
    (hfits : ∀ q ∈ plans, q.Fits ∧ q.cliques ≠ []) :
    p ∈ plans ∧ s₁.graph.branchSet? p.set.source = some p.set ∧
      ∃ paths config, Constructs oracle p groups s₁.graph s₂.graph paths config := by
  induction ht with
  | now hcurrent hrun =>
    obtain ⟨hp, hne⟩ := hfits p List.mem_cons_self
    exact ⟨List.mem_cons_self, hcurrent, constructs_of_run h hp hne hcurrent hrun⟩
  | @later s s' q plans others hbefore _ ih =>
    obtain ⟨hq, hne⟩ := hfits q List.mem_cons_self
    have hkeeps := carryOutIfCurrent_keeps oracle h hq hne
    rw [hbefore] at hkeeps
    obtain ⟨hmem, hturn⟩ := ih hkeeps.sound fun r hr => hfits r (List.mem_cons_of_mem _ hr)
    exact ⟨List.mem_cons_of_mem _ hmem, hturn⟩

theorem Turn.carried {s s₁ s₂ : Session σ} {plans : List Plan}
    (ht : Turn oracle p groups s₁ s₂ s plans) (h : s.graph.Sound)
    (hfits : ∀ q ∈ plans, q.Fits ∧ q.cliques ≠ []) :
    p ∈ plans ∧ s₁.graph.branchSet? p.set.source = some p.set ∧
      Carried p groups s₁.graph s₂.graph := by
  obtain ⟨hp, hcurrent, paths, config, hmade⟩ := ht.constructs h hfits
  exact ⟨hp, hcurrent, hmade.carried⟩

theorem CarriedIn.constructs {s : Session σ} {limit : Nat} {g g' : Graph}
    (hc : CarriedIn oracle p groups g g' limit s) (h : s.graph.Sound) :
    ∃ paths config, Constructs oracle p groups g g' paths config := by
  induction hc with
  | @now limit s s₁ s₂ s₃ found hfound hturn hbefore hafter =>
    obtain ⟨hgraph, hplans⟩ := (discover_all oracle s.graph.branchSets).ok hfound
    rw [← hbefore, ← hafter]
    exact (hturn.constructs (hgraph ▸ h) fun q hq => (hplans q hq).2).2.2
  | @later limit s s' report report' hround _ ih =>
    have hkeeps := round_keeps oracle report h
    rw [hround] at hkeeps
    exact ih hkeeps.sound

theorem CarriedIn.carried {s : Session σ} {limit : Nat} {g g' : Graph}
    (hc : CarriedIn oracle p groups g g' limit s) (h : s.graph.Sound) : Carried p groups g g' := by
  obtain ⟨paths, config, hmade⟩ := hc.constructs h
  exact hmade.carried

/-- Plans that have all had their turn: the first one, then the others. -/
theorem carryOut_cons_ok {s s' : Session σ} {plans : List Plan} {all : List (List Group)}
    (hrun : EStateM.run ((p :: plans).mapM (carryOutIfCurrent oracle)) s = .ok all s') :
    ∃ groups s₁ more, EStateM.run (carryOutIfCurrent oracle p) s = .ok groups s₁ ∧
      EStateM.run (plans.mapM (carryOutIfCurrent oracle)) s₁ = .ok more s' ∧
      all = groups :: more := by
  rw [List.mapM_cons] at hrun
  simp only [EStateM.run_bind] at hrun
  cases hp : EStateM.run (carryOutIfCurrent oracle p) s with
  | error e s₁ =>
    rw [hp] at hrun
    cases hrun
  | ok groups s₁ =>
    simp only [hp] at hrun
    cases hrest : EStateM.run (plans.mapM (carryOutIfCurrent oracle)) s₁ with
    | error e s₂ =>
      rw [hrest] at hrun
      cases hrun
    | ok more s₂ =>
      rw [hrest] at hrun
      cases hrun
      exact ⟨groups, s₁, more, rfl, hrest, rfl⟩

/-- Every group that comes of some plans comes of one that had its turn. -/
theorem exists_turn {s s' : Session σ} {plans : List Plan} {all : List (List Group)} {r : Group}
    (hrun : EStateM.run (plans.mapM (carryOutIfCurrent oracle)) s = .ok all s')
    (hr : r ∈ all.flatten) :
    ∃ p groups s₁ s₂, Turn oracle p groups s₁ s₂ s plans ∧ r ∈ groups := by
  induction plans generalizing s all with
  | nil =>
    cases hrun
    simp at hr
  | cons q plans ih =>
    obtain ⟨groups, s₁, more, hq, hrest, rfl⟩ := carryOut_cons_ok hrun
    rcases List.mem_append.mp hr with hr | hr
    · rcases carryOutIfCurrent_ok hq with ⟨-, rfl, -⟩ | ⟨hcurrent, hcarried⟩
      · simp at hr
      · exact ⟨q, groups, s, s₁, .now hcurrent hcarried, hr⟩
    · obtain ⟨p, groups', s₂, s₃, hturn, hr⟩ := ih hrest hr
      exact ⟨p, groups', s₂, s₃, .later hq hturn, hr⟩

/-- Every group of a report comes of a plan that was carried out, unless it was
in the report before. -/
theorem exists_carriedIn {s s' : Session σ} {limit : Nat} {report report' : Report} {r : Group}
    (hrun : EStateM.run (rounds oracle limit report) s = .ok report' s') (hr : r ∈ report'.groups) :
    r ∈ report.groups ∨
      ∃ p groups g g', CarriedIn oracle p groups g g' limit s ∧ r ∈ groups := by
  induction limit generalizing s report with
  | zero =>
    cases hrun
    exact Or.inl hr
  | succ limit ih =>
    rw [rounds_succ] at hrun
    have hends := round_ends oracle report s
    cases hround : EStateM.run (round oracle report) s with
    | error e s₁ =>
      rw [hround] at hrun
      cases hrun
    | ok result s₁ =>
      obtain ⟨report₁, more⟩ := result
      have hgroups : r ∈ report₁.groups → r ∈ report.groups ∨
          ∃ p groups g g', CarriedIn oracle p groups g g' (limit + 1) s ∧ r ∈ groups := by
        intro hr
        rw [hround] at hends
        cases hends with
        | idle => exact Or.inl hr
        | done hfound hcarried hsettled =>
          rcases List.mem_append.mp hr with hr | hr
          · exact Or.inl hr
          · obtain ⟨p, groups, s₂, s₃, hturn, hr⟩ := exists_turn hcarried hr
            exact Or.inr ⟨p, groups, _, _, .now hfound hturn rfl rfl, hr⟩
      rw [hround] at hrun
      cases more with
      | false =>
        cases hrun
        exact hgroups hr
      | true =>
        rcases ih hrun with hr | ⟨p, groups, g, g', hcarried, hr⟩
        · exact hgroups hr
        · exact Or.inr ⟨p, groups, g, g', .later hround hcarried, hr⟩

/-! ## Relations across a session -/

/-- A relation between graphs that is kept by what brings path conditions up to
date, and adds up. -/
structure Composes (R : Graph → Graph → Prop) : Prop where
  refl : ∀ {g}, g.Sound → R g g
  settles : ∀ {g g'}, g.Sound → g.Settles g' → R g g'
  trans : ∀ {g g' g''}, R g g' → R g' g'' → R g g''

variable {R : Graph → Graph → Prop} {s : Session σ}

/-- It is enough that no change of configurations breaks the relation. -/
theorem Composes.of_reconfigured (hre : ∀ {g g'}, g.Sound → g.Reconfigured g' → R g g')
    (htrans : ∀ {g g' g''}, R g g' → R g' g'' → R g g'') : Composes R :=
  ⟨fun hg => hre hg (.refl _), fun hg h => hre hg h.toReconfigured, htrans⟩

theorem Composes.unchanged (hR : Composes R) {g g' : Graph} (h : g.Sound) (he : g' = g) :
    R g g' := he.symm ▸ hR.refl h

theorem carryOut_all_related (hR : Composes R) {plans : List Plan} (h : s.graph.Sound)
    (hfits : ∀ q ∈ plans, q.Fits ∧ q.cliques ≠ [])
    (hturn : ∀ p groups s₁ s₂, Turn oracle p groups s₁ s₂ s plans → R s₁.graph s₂.graph) :
    R s.graph (stateOf (EStateM.run (plans.mapM (carryOutIfCurrent oracle)) s)).graph := by
  induction plans generalizing s with
  | nil => exact hR.unchanged h rfl
  | cons q plans ih =>
    have hkeeps := carryOutIfCurrent_keeps oracle h (hfits q List.mem_cons_self).1
      (hfits q List.mem_cons_self).2
    rw [List.mapM_cons]
    simp only [EStateM.run_bind]
    cases hq : EStateM.run (carryOutIfCurrent oracle q) s with
    | error e s₁ =>
      -- a plan that fails has changed nothing
      rw [hq] at hkeeps
      obtain ⟨groups, s₂, hnone, hgraph⟩ := (hkeeps.error e s₁ rfl).carried
      cases hnone
      exact hR.unchanged h hgraph
    | ok groups s₁ =>
      rw [hq] at hkeeps
      have hfirst : R s.graph s₁.graph := by
        rcases carryOutIfCurrent_ok hq with ⟨-, -, rfl⟩ | ⟨hcurrent, hcarried⟩
        · exact hR.unchanged h rfl
        · exact hturn q groups s s₁ (.now hcurrent hcarried)
      have hs₁ : s₁.graph.Sound := hkeeps.sound
      have hrest := ih hs₁ (fun r hr => hfits r (List.mem_cons_of_mem _ hr))
        fun p groups' s₂ s₃ ht => hturn p groups' s₂ s₃ (.later hq ht)
      simp only
      cases hmore : EStateM.run (plans.mapM (carryOutIfCurrent oracle)) s₁ with
      | error e s₂ =>
        rw [hmore] at hrest
        exact hR.trans hfirst hrest
      | ok more s₂ =>
        rw [hmore] at hrest
        exact hR.trans hfirst hrest

theorem round_related (hR : Composes R) (h : s.graph.Sound) (report : Report)
    (hcarried : ∀ p groups g g', CarriedIn oracle p groups g g' 1 s → R g g') :
    R s.graph (stateOf (EStateM.run (round oracle report) s)).graph := by
  have hquiet := discover_all oracle s.graph.branchSets
  have hplans : ∀ {found s₁},
      EStateM.run (s.graph.branchSets.mapM (discover oracle)) s = .ok found s₁ →
      R s.graph (stateOf (EStateM.run ((plansOf found).mapM (carryOutIfCurrent oracle)) s₁)).graph ∧
        (stateOf (EStateM.run ((plansOf found).mapM (carryOutIfCurrent oracle)) s₁)).graph.Sound := by
    intro found s₁ hfound
    obtain ⟨hgraph, hfits⟩ := hquiet.ok hfound
    have hfits : ∀ q ∈ plansOf found, q.Fits ∧ q.cliques ≠ [] := fun q hq => (hfits q hq).2
    refine ⟨?_, (carryOut_all oracle (hgraph ▸ h) hfits).sound⟩
    rw [← hgraph]
    exact carryOut_all_related hR (hgraph ▸ h) hfits
      fun p groups s₂ s₃ hturn => hcarried p groups _ _ (.now hfound hturn rfl rfl)
  have hends := round_ends oracle report s
  generalize EStateM.run (round oracle report) s = r at hends
  cases hends with
  | asking hstop =>
    exact hR.unchanged h ((hquiet.keeps h).error _ _ hstop).1
  | idle hfound _ => exact hR.unchanged h (hquiet.ok hfound).1
  | guarding hfound hstop =>
    have hrelated := (hplans hfound).1
    rw [hstop] at hrelated
    exact hrelated
  | settling hfound hdone hstop =>
    obtain ⟨-, hsound⟩ := hplans hfound
    rw [hdone] at hsound
    exact ((propagate_keeps (Q := fun _ _ => False) hsound).error _ _ hstop).elim
  | done hfound hdone hsettled =>
    obtain ⟨hrelated, hsound⟩ := hplans hfound
    rw [hdone] at hrelated hsound
    obtain ⟨g', hg', rfl⟩ := propagate_ok hsound hsettled
    exact hR.trans hrelated (hR.settles hsound hg')

theorem CarriedIn.of_first {limit : Nat} {g g' : Graph}
    (hc : CarriedIn oracle p groups g g' 1 s) : CarriedIn oracle p groups g g' (limit + 1) s := by
  cases hc with
  | now hfound hturn hbefore hafter => exact .now hfound hturn hbefore hafter
  | later _ hrest => cases hrest

/-- What holds across every plan that a session carries out holds across the
session. -/
theorem rounds_related (hR : Composes R) (h : s.graph.Sound) {limit : Nat} {report : Report}
    (hcarried : ∀ p groups g g', CarriedIn oracle p groups g g' limit s → R g g') :
    R s.graph (stateOf (EStateM.run (rounds oracle limit report) s)).graph := by
  induction limit generalizing s report with
  | zero => exact hR.unchanged h rfl
  | succ limit ih =>
    have hfirst := round_related hR h report
      fun p groups g g' hc => hcarried p groups g g' hc.of_first
    have hkeeps := round_keeps oracle report h
    rw [rounds_succ]
    cases hround : EStateM.run (round oracle report) s with
    | error e s₁ =>
      rw [hround] at hfirst
      exact hfirst
    | ok result s₁ =>
      obtain ⟨report₁, more⟩ := result
      rw [hround] at hfirst hkeeps
      cases more with
      | false => exact hfirst
      | true =>
        refine hR.trans hfirst (ih hkeeps.sound fun p groups g g' hc => ?_)
        exact hcarried p groups g g' (.later hround hc)

/-- What holds across every plan of a session holds from its start to any plan. -/
theorem Turn.related (hR : Composes R) {plans : List Plan} {s₁ s₂ : Session σ}
    (ht : Turn oracle p groups s₁ s₂ s plans) (h : s.graph.Sound)
    (hfits : ∀ q ∈ plans, q.Fits ∧ q.cliques ≠ [])
    (hturn : ∀ p groups s₁ s₂, Turn oracle p groups s₁ s₂ s plans → R s₁.graph s₂.graph) :
    R s.graph s₁.graph := by
  induction ht with
  | now => exact hR.unchanged h rfl
  | @later s s' q plans others hbefore _ ih =>
    obtain ⟨hq, hne⟩ := hfits q List.mem_cons_self
    have hkeeps := carryOutIfCurrent_keeps oracle h hq hne
    rw [hbefore] at hkeeps
    have hrest := ih hkeeps.sound (fun r hr => hfits r (List.mem_cons_of_mem _ hr))
      fun p groups s₂ s₃ ht => hturn p groups s₂ s₃ (.later hbefore ht)
    rcases carryOutIfCurrent_ok hbefore with ⟨-, -, rfl⟩ | ⟨hcurrent, hcarried⟩
    · exact hrest
    · exact hR.trans (hturn q others s s' (.now hcurrent hcarried)) hrest

theorem CarriedIn.related (hR : Composes R) {limit : Nat} {g g' : Graph}
    (hc : CarriedIn oracle p groups g g' limit s) (h : s.graph.Sound)
    (hcarried : ∀ p groups g g', CarriedIn oracle p groups g g' limit s → R g g') :
    R s.graph g := by
  induction hc with
  | @now limit s s₁ s₂ s₃ found hfound hturn hbefore hafter =>
    obtain ⟨hgraph, hplans⟩ := (discover_all oracle s.graph.branchSets).ok hfound
    rw [← hbefore, ← hgraph]
    exact hturn.related hR (hgraph ▸ h) (fun q hq => (hplans q hq).2)
      fun p groups s₂ s₃ ht => hcarried p groups _ _ (.now hfound ht rfl rfl)
  | @later limit s s' report report' hround _ ih =>
    have hfirst := round_related hR h report
      fun p groups g g' hc => hcarried p groups g g' hc.of_first
    have hkeeps := round_keeps oracle report h
    rw [hround] at hkeeps hfirst
    exact hR.trans hfirst
      (ih hkeeps.sound fun p groups g g' hc => hcarried p groups g g' (.later hround hc))

/-- What holds across every plan of a session holds from any plan to the end. -/
theorem Turn.since (hR : Composes R) {plans : List Plan} {all : List (List Group)}
    {s₁ s₂ s' : Session σ} (ht : Turn oracle p groups s₁ s₂ s plans) (h : s.graph.Sound)
    (hfits : ∀ q ∈ plans, q.Fits ∧ q.cliques ≠ [])
    (hturn : ∀ p groups s₁ s₂, Turn oracle p groups s₁ s₂ s plans → R s₁.graph s₂.graph)
    (hrun : EStateM.run (plans.mapM (carryOutIfCurrent oracle)) s = .ok all s') :
    R s₂.graph s'.graph := by
  induction ht generalizing all with
  | @now plans hcurrent hcarried =>
    obtain ⟨groups', s₃, more, hp, hrest, -⟩ := carryOut_cons_ok hrun
    obtain ⟨hfit, hne⟩ := hfits p List.mem_cons_self
    have hkeeps := carryOutIfCurrent_keeps oracle h hfit hne
    rw [hp] at hkeeps
    obtain ⟨-, hcarried'⟩ := (carryOutIfCurrent_ok hp).resolve_left fun hskip => hskip.1 hcurrent
    rw [hcarried] at hcarried'
    cases hcarried'
    have hrelated := carryOut_all_related (s := s₂) hR hkeeps.sound
      (fun q hq => hfits q (List.mem_cons_of_mem _ hq))
      fun p groups s₁ s₂ ht => hturn p groups s₁ s₂ (.later hp ht)
    rw [hrest] at hrelated
    exact hrelated
  | @later s s₃ q plans others hbefore _ ih =>
    obtain ⟨groups', s₄, more, hq, hrest, -⟩ := carryOut_cons_ok hrun
    rw [hbefore] at hq
    cases hq
    obtain ⟨hfit, hne⟩ := hfits q List.mem_cons_self
    have hkeeps := carryOutIfCurrent_keeps oracle h hfit hne
    rw [hbefore] at hkeeps
    exact ih hkeeps.sound (fun r hr => hfits r (List.mem_cons_of_mem _ hr))
      (fun p groups s₁ s₂ ht => hturn p groups s₁ s₂ (.later hbefore ht)) hrest

/-- The same for the round that a plan is carried out in. -/
theorem Turn.since_round (hR : Composes R) {found : List (Plan × Nat)} {s₁ s₂ s₃ s' : Session σ}
    {report : Report} {r : Report × Bool} (h : s.graph.Sound)
    (hfound : EStateM.run (s.graph.branchSets.mapM (discover oracle)) s = .ok found s₁)
    (ht : Turn oracle p groups s₂ s₃ s₁ (plansOf found))
    (hturn : ∀ p groups s₂ s₃, Turn oracle p groups s₂ s₃ s₁ (plansOf found) →
      R s₂.graph s₃.graph)
    (hrun : EStateM.run (round oracle report) s = .ok r s') : R s₃.graph s'.graph := by
  have hends := round_ends oracle report s
  rw [hrun] at hends
  cases hends with
  | idle hidle hnothing =>
    rw [hfound] at hidle
    cases hidle
    rw [hnothing] at ht
    cases ht
  | done hdone hall hsettled =>
    rw [hfound] at hdone
    cases hdone
    obtain ⟨hgraph, hplans⟩ := (discover_all oracle s.graph.branchSets).ok hfound
    have hfits : ∀ q ∈ plansOf found, q.Fits ∧ q.cliques ≠ [] := fun q hq => (hplans q hq).2
    have hsound := (carryOut_all oracle (hgraph ▸ h) hfits).sound
    rw [hall] at hsound
    obtain ⟨g', hg', rfl⟩ := propagate_ok hsound hsettled
    exact hR.trans (ht.since hR (hgraph ▸ h) hfits hturn hall) (hR.settles hsound hg')

theorem CarriedIn.since (hR : Composes R) {limit : Nat} {g g' : Graph} {report report' : Report}
    {s' : Session σ} (hc : CarriedIn oracle p groups g g' limit s) (h : s.graph.Sound)
    (hcarried : ∀ p groups g g', CarriedIn oracle p groups g g' limit s → R g g')
    (hrun : EStateM.run (rounds oracle limit report) s = .ok report' s') : R g' s'.graph := by
  induction hc generalizing report with
  | @now limit s s₁ s₂ s₃ found hfound hturn hbefore hafter =>
    rw [rounds_succ] at hrun
    have hkeeps := round_keeps oracle report h
    cases hround : EStateM.run (round oracle report) s with
    | error e s₄ =>
      rw [hround] at hrun
      cases hrun
    | ok result s₄ =>
      obtain ⟨report₁, more⟩ := result
      have hfirst : R s₃.graph s₄.graph := hturn.since_round hR h hfound
        (fun p groups s₂ s₃ ht => hcarried p groups _ _ (.now hfound ht rfl rfl)) hround
      rw [hround] at hkeeps hrun
      rw [← hafter]
      cases more with
      | false =>
        cases hrun
        exact hfirst
      | true =>
        have hrun : EStateM.run (rounds oracle limit report₁) s₄ = .ok report' s' := hrun
        have hrest : R s₄.graph (stateOf (EStateM.run (rounds oracle limit report₁) s₄)).graph :=
          rounds_related hR hkeeps.sound
            fun p groups g g' hc => hcarried p groups g g' (.later hround hc)
        rw [hrun] at hrest
        exact hR.trans hfirst hrest
  | @later limit s s₁ report₁ report₂ hround _ ih =>
    obtain ⟨r, hround'⟩ := round_report hround report
    have hkeeps := round_keeps oracle report h
    rw [hround'] at hkeeps
    rw [rounds_succ, hround'] at hrun
    exact ih hkeeps.sound (fun p groups g g' hc => hcarried p groups g g' (.later hround hc)) hrun

end Merging

end StateGraph
