-- Merging with an oracle that lets any two configurations share a path. Every plan then
-- takes all branches of its split, so that nothing more is asked of the oracle while the
-- graph changes, and every group leaves fewer nodes than there were.
import StateGraph.Proofs.DeclinedPairs

namespace StateGraph

/-- The oracle lets any two configurations share a path. It may fail on guards. -/
def Oracle.Agrees {σ : Type} (oracle : Oracle σ) : Prop :=
  ∀ a b m, ∃ m', (oracle.mergeable a b).run m = .ok true m'

/-- One clique of all branches. -/
def Plan.Whole (p : Plan) : Prop := p.cliques = [p.set.branches.map (·.node)]

theorem Plan.Whole.coversSplit {p : Plan} (h : p.Whole) : p.coversSplit = true := by
  unfold Plan.coversSplit
  rw [h]
  simp

namespace Merging

variable {σ : Type} {oracle : Oracle σ} {s s' : Session σ} {p : Plan} {plans : List Plan}

/-! ## Only one clique is found -/

/-- All answers of the log are positive. -/
def Agreed (s : Session σ) : Prop := ∀ q ∈ s.questions, q.reply = .ok true

theorem weigh_agreed (hagrees : oracle.Agrees) (hs : Agreed s) (found : Compatibility × Nat)
    (pair : Branch × Branch) : Ensures s (weigh oracle found pair) fun _ s' => Agreed s' := by
  obtain ⟨a, b⟩ := pair
  intro found' s' hrun
  obtain ⟨yes, -, ⟨-, rfl⟩ | ⟨m, hans, rfl⟩⟩ := weigh_ok hrun
  · exact hs
  · obtain ⟨m', hyes⟩ := hagrees a.config b.config s.memory
    rw [hyes] at hans
    cases hans
    intro q hq
    rcases List.mem_append.mp hq with hq | hq
    · exact hs q hq
    · rw [List.mem_singleton.mp hq]

theorem compatibility_agreed (hagrees : oracle.Agrees) (hs : Agreed s) (set : BranchSet) :
    Ensures s (compatibility oracle set) fun _ s' => Agreed s' :=
  Ensures.foldlM (Q := fun _ s' => Agreed s')
    (fun found _ pair _ hs' => weigh_agreed hagrees hs' found pair) hs

theorem compatibility_whole (hagrees : oracle.Agrees) (hs : Agreed s) {g : Graph}
    {set : BranchSet} {cases : Cases} (hq : Qualified g set cases) :
    Ensures s (compatibility oracle set) fun found s' =>
      found.1.maximalCliques 2 = [set.branches.map (·.node)] ∧ Agreed s' := by
  have hne : ∀ pair ∈ pairs set.branches, pair.1.node ≠ pair.2.node := fun pair hpair =>
    Nat.ne_of_lt (rel_of_mem_pairs hq.ascending hpair)
  intro found s' hrun
  have hs' := compatibility_agreed hagrees hs set found s' hrun
  have hdecided := weigh_all_decides hne found s' hrun
  have hvertices : ∀ v, v ∈ found.1.vertices ↔ v ∈ set.branches.map (·.node) := fun v =>
    ⟨((quiet_compatibility oracle set).ok hrun).2 v,
      fun hv => hdecided.vertex v (Compatibility.mem_vertices_ofVertices.mpr hv)⟩
  -- no pair has been declined, so all are connected
  have hconnected : ∀ pair ∈ pairs set.branches,
      found.1.connected pair.1.node pair.2.node = true := by
    intro pair hpair
    refine (hdecided.decided pair hpair).resolve_right ?_
    rintro ⟨q, hquestion, -, -, hno⟩
    rw [hs' q hquestion] at hno
    cases hno
  refine ⟨Compatibility.maximalCliques_complete ?_ ?_ hvertices ?_, hs'⟩
  · exact List.pairwise_map.mpr hq.ascending
  · rw [hq.nodes_eq, Table.length_keys]
    exact hq.many
  · refine List.pairwise_map.mpr (hq.ascending.imp_of_mem fun ha hb hlt => ?_)
    exact hconnected _ (mem_pairs hq.ascending ha hb hlt)

theorem discover_whole (hagrees : oracle.Agrees) (hs : Agreed s) {g : Graph} {set : BranchSet}
    {cases : Cases} (hq : Qualified g set cases) :
    Ensures s (discover oracle set) fun r s' => r.1.Whole ∧ Agreed s' :=
  (compatibility_whole hagrees hs hq).bind fun _ _ hfound => .pure hfound

theorem discover_all_whole (hagrees : oracle.Agrees) (hs : Agreed s) {g : Graph}
    {sets : List BranchSet} (hsets : ∀ set ∈ sets, ∃ cases, Qualified g set cases) :
    Ensures s (sets.mapM (discover oracle)) fun found s' =>
      (∀ r ∈ found, r.1.Whole) ∧ Agreed s' := by
  induction sets generalizing s with
  | nil => exact .pure ⟨by simp, hs⟩
  | cons set sets ih =>
    obtain ⟨cases, hq⟩ := hsets set List.mem_cons_self
    rw [List.mapM_cons]
    refine (discover_whole hagrees hs hq).bind fun r s₁ ⟨hr, hs₁⟩ => ?_
    refine (ih hs₁ fun other hother => hsets other (List.mem_cons_of_mem _ hother)).bind
      fun more s₂ ⟨hmore, hs₂⟩ => .pure ⟨List.forall_mem_cons.mpr ⟨hr, hmore⟩, hs₂⟩

/-- A round finds a plan for every split that qualifies, and each takes all branches. -/
theorem round_discovers (hagrees : oracle.Agrees) (hs : Agreed s) :
    ∃ found s', EStateM.run (s.graph.branchSets.mapM (discover oracle)) s = .ok found s' ∧
      s'.graph = s.graph ∧ Agreed s' ∧ (∀ p ∈ plansOf found, p.Whole) ∧
      (plansOf found = [] → s.graph.branchSets = []) := by
  have hquiet := discover_each oracle s.graph.branchSets
  cases hrun : EStateM.run (s.graph.branchSets.mapM (discover oracle)) s with
  | error e s' =>
    have hfails := hquiet s
    rw [hrun] at hfails
    obtain ⟨-, set, -, a, b, -, m, m', hfail⟩ := hfails
    obtain ⟨m'', hyes⟩ := hagrees a.config b.config m
    rw [hyes] at hfail
    cases hfail
  | ok found s' =>
    obtain ⟨hgraph, hsets, -⟩ := hquiet.ok hrun
    obtain ⟨hwhole, hs'⟩ := discover_all_whole hagrees hs
      (fun _ => Graph.qualified_of_mem) found s' hrun
    refine ⟨found, s', rfl, hgraph, hs', fun p hp => ?_, fun hnone => ?_⟩
    · obtain ⟨r, hr, rfl⟩ := List.mem_map.mp (List.mem_filter.mp hp).1
      exact hwhole r hr
    · have hfound : found = [] := List.eq_nil_iff_forall_not_mem.mpr fun r hr => by
        have hno := List.filter_eq_nil_iff.mp hnone r.1 (List.mem_map_of_mem hr)
        rw [hwhole r hr] at hno
        simp at hno
      rw [← hsets, hfound, List.map_nil]

/-! ## A plan for all branches -/

/-- A split that is merged as a whole: its source starts the path of all branches, and the
graph has lost a node at least. -/
structure Collapsed (p : Plan) (groups : List Group) (g g' : Graph) : Prop where
  current : ∃ cases, Qualified g p.set cases
  size : g'.nodes.size < g.nodes.size
  group : ∃ r, groups = [r] ∧ r.splitSource = p.set.source ∧ r.anchor = p.set.source ∧
    r.members = p.set.branches.map (·.node)

/-- A graph loses the branches that one path from the source has taken in, and gets the
end of the path. -/
theorem size_lt_of_reworked {g g' : Graph} {set : BranchSet} {path : MergedPath}
    (h : g.Reworked g' set [path]) (hanchor : path.group.anchor = set.source)
    (hnd : path.group.members.Nodup) (hlarge : 2 ≤ path.group.members.length) :
    g'.nodes.size < g.nodes.size := by
  have habsorbed : ∀ id, Absorbed [path] id ↔ id ∈ path.group.members := by simp [Absorbed]
  have hcard : ∀ g : Graph, g.nodes.keys.toFinset.card = g.nodes.size := fun g => by
    rw [List.toFinset_card_of_nodup g.nodes.keys_nodup, Table.length_keys]
  have hmembers : path.group.members.toFinset ⊆ g.nodes.keys.toFinset := fun id hid => by
    rw [List.mem_toFinset, ← habsorbed] at hid
    exact List.mem_toFinset.mpr (Table.mem_keys.mpr (h.mem_nodes_of_absorbed hid))
  have hnodes : g'.nodes.keys.toFinset ⊆
      insert path.group.merged (g.nodes.keys.toFinset \ path.group.members.toFinset) := by
    intro id hid
    rw [List.mem_toFinset, Table.mem_keys] at hid
    rw [Finset.mem_insert, Finset.mem_sdiff, List.mem_toFinset, List.mem_toFinset, Table.mem_keys,
      ← habsorbed]
    rcases h.node_new id hid with hold | ⟨q, hq, he⟩
    · exact Or.inr ⟨hold, fun habs => h.absorbed id habs hid⟩
    · obtain rfl := List.mem_singleton.mp hq
      rcases he with he | he
      · exact Or.inr ⟨by rw [he, hanchor]; exact h.source_mem, fun habs => h.absorbed id habs hid⟩
      · exact Or.inl he
  have hle := (Finset.card_le_card hnodes).trans (Finset.card_insert_le _ _)
  rw [Finset.card_sdiff_of_subset hmembers, hcard, hcard, List.toFinset_card_of_nodup hnd] at hle
  have hsub := Finset.card_le_card hmembers
  rw [hcard, List.toFinset_card_of_nodup hnd] at hsub
  omega

/-- A plan for all branches is carried out without a word of the oracle. -/
theorem carryOut_collapses (oracle : Oracle σ) (h : s.graph.Sound)
    (hcurrent : s.graph.branchSet? p.set.source = some p.set) (hp : p.Fits) (hwhole : p.Whole) :
    ∃ groups s', EStateM.run (carryOut oracle p) s = .ok groups s' ∧
      Collapsed p groups s.graph s'.graph := by
  obtain ⟨-, cases, hq⟩ := Graph.branchSet?_eq_some hcurrent
  obtain ⟨members, bs, config, hcliques, hfit, hall, -, hrun⟩ :=
    carryOut_whole_eq oracle h hq hp hwhole.coversSplit
  obtain rfl : members = p.set.branches.map (·.node) :=
    List.singleton_injective (hcliques.symm.trans hwhole)
  refine ⟨_, _, hrun, ⟨cases, hq⟩, ?_, _, rfl, rfl, rfl, rfl⟩
  refine size_lt_of_reworked (Graph.reworked_whole h hq hfit hall config) rfl hq.nodes_nodup ?_
  exact hp.large _ (hwhole ▸ List.mem_singleton_self _)

/-- With plans for all branches every turn ends well. Each group leaves fewer nodes. -/
theorem carryOut_all_collapses (oracle : Oracle σ) (h : s.graph.Sound)
    (hplans : ∀ p ∈ plans, p.Fits ∧ p.Whole) :
    ∃ all s', EStateM.run (plans.mapM (carryOutIfCurrent oracle)) s = .ok all s' ∧
      s'.graph.Sound ∧ all.flatten.length + s'.graph.nodes.size ≤ s.graph.nodes.size := by
  induction plans generalizing s with
  | nil => exact ⟨[], s, rfl, h, by simp⟩
  | cons p plans ih =>
    obtain ⟨hp, hwhole⟩ := hplans p List.mem_cons_self
    have hturn : ∃ groups s₁, EStateM.run (carryOutIfCurrent oracle p) s = .ok groups s₁ ∧
        s₁.graph.Sound ∧ groups.length + s₁.graph.nodes.size ≤ s.graph.nodes.size := by
      have hkeeps := carryOutIfCurrent_keeps oracle h hp (by rw [hwhole]; simp)
      by_cases hcurrent : s.graph.branchSet? p.set.source = some p.set
      · obtain ⟨groups, s₁, hrun, hcollapsed⟩ := carryOut_collapses oracle h hcurrent hp hwhole
        have hrun' : EStateM.run (carryOutIfCurrent oracle p) s = .ok groups s₁ := by
          simp only [carryOutIfCurrent, EStateM.run_bind, EStateM.run_get, if_pos hcurrent, hrun]
        rw [hrun'] at hkeeps
        obtain ⟨r, rfl, -⟩ := hcollapsed.group
        have hsize := hcollapsed.size
        exact ⟨_, s₁, hrun', hkeeps.sound, by rw [List.length_singleton]; omega⟩
      · refine ⟨[], s, ?_, h, by simp⟩
        simp only [carryOutIfCurrent, EStateM.run_bind, EStateM.run_get, if_neg hcurrent]
        rfl
    obtain ⟨groups, s₁, hrun, hs₁, hsize⟩ := hturn
    obtain ⟨all, s', hruns, hs', hsizes⟩ := ih hs₁ fun q hq => hplans q (List.mem_cons_of_mem _ hq)
    refine ⟨groups :: all, s', ?_, hs', ?_⟩
    · rw [List.mapM_cons]
      simp only [EStateM.run_bind, hrun, hruns]
      rfl
    · rw [List.flatten_cons, List.length_append]
      omega

/-! ## Rounds -/

theorem round_agreed (hagrees : oracle.Agrees) (hs : Agreed s) {report : Report}
    {r : Report × Bool} (hrun : EStateM.run (round oracle report) s = .ok r s') :
    Agreed s' := by
  obtain ⟨found, s₁, hfound, -, hs₁, -⟩ := round_discovers hagrees hs
  have hlog := round_log oracle report s
  rw [hrun, hfound] at hlog
  exact fun q hq => hs₁ q (hlog ▸ hq)

/-- A round ends well. It leaves fewer nodes if it merges something, and otherwise it has
found no split that qualifies. -/
theorem round_collapses (hagrees : oracle.Agrees) (h : s.graph.Sound) (hs : Agreed s)
    (report : Report) :
    ∃ report' more s', EStateM.run (round oracle report) s = .ok (report', more) s' ∧
      (more = true → s'.graph.nodes.size < s.graph.nodes.size) ∧
      (more = false → s'.graph = s.graph ∧ s.graph.branchSets = []) := by
  obtain ⟨found, s₁, hfound, hgraph, hs₁, hwhole, hnothing⟩ := round_discovers hagrees hs
  have hfits : ∀ p ∈ plansOf found, p.Fits ∧ p.Whole := fun p hp =>
    ⟨(((discover_all oracle s.graph.branchSets).ok hfound).2 p hp).2.1, hwhole p hp⟩
  by_cases hnone : plansOf found = []
  · refine ⟨_, _, _, round_idle hfound hnone, fun hmore => ?_, fun _ => ⟨hgraph, hnothing hnone⟩⟩
    cases hmore
  · obtain ⟨all, s₂, hcarried, hs₂, hsize⟩ := carryOut_all_collapses oracle (hgraph ▸ h) hfits
    obtain ⟨n, g', hsettled, hsettles, -⟩ := Update.propagate_settles hs₂
    have hdone : EStateM.run (update Update.propagate) s₂ = .ok n { s₂ with graph := g' } := by
      rw [update_run, hsettled]
    have hround : EStateM.run (round oracle report) s = .ok (_, _) _ :=
      round_done hfound hcarried hdone hnone
    refine ⟨_, _, _, hround, fun hmore => ?_, fun hmore => ?_⟩
    · have hlength : 0 < all.flatten.length := List.length_pos_iff.mpr (by simpa using hmore)
      have hsame : g'.nodes.size = s₂.graph.nodes.size := by
        rw [← Table.length_keys, ← Table.length_keys]
        exact hsettles.keys_perm.length_eq
      rw [hgraph] at hsize
      change g'.nodes.size < _
      omega
    · rw [hmore] at hround
      obtain ⟨found', hfound', hnone', -⟩ := round_stops h hround
      rw [hfound] at hfound'
      cases hfound'
      exact absurd hnone' hnone

/-- A session ends well, after no more rounds than it has taken nodes away. If it has
rounds left, no split qualifies where it ends. -/
theorem rounds_collapse (hagrees : oracle.Agrees) (h : s.graph.Sound) (hs : Agreed s)
    (limit : Nat) (report : Report) :
    ∃ report' s', EStateM.run (rounds oracle limit report) s = .ok report' s' ∧
      report'.rounds + s'.graph.nodes.size ≤ report.rounds + s.graph.nodes.size ∧
      (report'.rounds < report.rounds + limit → s'.graph.branchSets = []) := by
  induction limit generalizing s report with
  | zero => exact ⟨report, s, rfl, Nat.le_refl _, fun hlt => absurd hlt (Nat.lt_irrefl _)⟩
  | succ limit ih =>
    obtain ⟨report₁, more, s₁, hround, hfewer, hnone⟩ := round_collapses hagrees h hs report
    have hkeeps := round_keeps oracle report h
    have hs₁ := round_agreed hagrees hs hround
    rw [rounds_succ]
    rw [hround] at hkeeps ⊢
    cases more with
    | false =>
      obtain ⟨hgraph, hnothing⟩ := hnone rfl
      obtain ⟨found, -, -, rfl⟩ := round_stops h hround
      exact ⟨_, s₁, rfl, by rw [hgraph]; exact Nat.le_refl _, fun _ => hgraph ▸ hnothing⟩
    | true =>
      obtain ⟨report', s', hrun, hsize, hstops⟩ := ih (s := s₁) hkeeps.sound hs₁ report₁
      have hcount := round_counts hround
      have hless := hfewer rfl
      exact ⟨report', s', hrun, by omega, fun hlt => hstops (by omega)⟩

/-- Where no split qualifies, a session does nothing at all. -/
theorem rounds_nothing (oracle : Oracle σ) (hnone : s.graph.branchSets = []) (limit : Nat)
    (report : Report) : EStateM.run (rounds oracle limit report) s = .ok report s := by
  cases limit with
  | zero => rfl
  | succ limit =>
    have hfound : EStateM.run (s.graph.branchSets.mapM (discover oracle)) s = .ok [] s := by
      rw [hnone]
      rfl
    rw [rounds_succ, round_idle hfound rfl]
    rfl

/-- A session carries out only plans for all branches. -/
theorem CarriedIn.collapsed (hagrees : oracle.Agrees) {groups : List Group} {limit : Nat}
    {g g' : Graph} (hc : CarriedIn oracle p groups g g' limit s) (h : s.graph.Sound)
    (hs : Agreed s) : Collapsed p groups g g' := by
  induction hc with
  | @now limit s s₁ s₂ s₃ found hfound hturn hbefore hafter =>
    obtain ⟨found', s₁', hfound', hgraph, -, hwhole, -⟩ := round_discovers hagrees hs
    rw [hfound] at hfound'
    cases hfound'
    have hplans := ((discover_all oracle s.graph.branchSets).ok hfound).2
    obtain ⟨hp, hcurrent, paths, hreworked, -⟩ :=
      hturn.carried (hgraph ▸ h) fun q hq => (hplans q hq).2
    obtain ⟨groups', s', hrun, hcollapsed⟩ :=
      carryOut_collapses oracle hreworked.sound hcurrent (hplans p hp).2.1 (hwhole p hp)
    rw [hturn.run] at hrun
    cases hrun
    rw [← hbefore, ← hafter]
    exact hcollapsed
  | @later limit s s' report report' hround _ ih =>
    have hkeeps := round_keeps oracle report h
    rw [hround] at hkeeps
    exact ih hkeeps.sound (round_agreed hagrees hs hround)

end Merging

open Merging

/-- With an oracle that lets all configurations share a path, merging with more rounds than
there are nodes ends well and before its limit, whatever the oracle makes of guards. Each
group takes all branches of its split and starts at its source. No split qualifies in the
end, so merging again asks nothing and changes nothing. -/
theorem Reachable.merging_collapses {g : Graph} (h : Reachable g) {σ : Type} {oracle : Oracle σ}
    (hagrees : ∀ a b m, ∃ m', (oracle.mergeable a b).run m = .ok true m') (memory : σ) {limit : Nat}
    (hlimit : g.nodes.size < limit) :
    let s : Session σ := { graph := g, memory := memory }
    ∃ report s', EStateM.run (Merging.run oracle limit) s = .ok report s' ∧
      report.rounds < limit ∧
      (∀ r ∈ report.groups, ∃ p groups g₁ g₂ cases, CarriedIn oracle p groups g₁ g₂ limit s ∧
        r ∈ groups ∧ r.anchor = r.splitSource ∧ g₁.splits.get? r.splitSource = some cases ∧
        r.members = cases.targets) ∧
      (∀ source, s'.graph.branchSet? source = none) ∧
      ∀ memory' again, EStateM.run (Merging.run oracle again)
          { graph := s'.graph, memory := memory' } =
        .ok {} { graph := s'.graph, memory := memory' } := by
  intro s
  have hstart : Agreed s := fun q hq => by cases hq
  obtain ⟨report, s', hrun, hsize, hstops⟩ := rounds_collapse hagrees h.sound hstart limit {}
  have hrounds : report.rounds < limit := by
    change report.rounds + s'.graph.nodes.size ≤ 0 + g.nodes.size at hsize
    omega
  have hnone : s'.graph.branchSets = [] := hstops (by rw [Nat.zero_add]; exact hrounds)
  refine ⟨report, s', hrun, hrounds, fun r hr => ?_, fun source => ?_, fun memory' again => ?_⟩
  · obtain ⟨p, groups, g₁, g₂, hc, hin⟩ := (exists_carriedIn hrun hr).resolve_left (by simp)
    have hcollapsed := hc.collapsed hagrees h.sound hstart
    obtain ⟨cases, hq⟩ := hcollapsed.current
    obtain ⟨r', rfl, hsource, hanchor, hmembers⟩ := hcollapsed.group
    obtain rfl := List.mem_singleton.mp hin
    refine ⟨p, _, g₁, g₂, cases, hc, hin, hanchor.trans hsource.symm, ?_, ?_⟩
    · rw [hsource, hq.split]
    · rw [hmembers, hq.nodes_eq]
      rfl
  · cases hset : s'.graph.branchSet? source with
    | none => rfl
    | some set =>
      have hin := Graph.mem_branchSets hset
      rw [hnone] at hin
      cases hin
  · exact rounds_nothing (s := { graph := s'.graph, memory := memory' }) oracle hnone again {}

/-- Any two configurations may share a path, but no guard is ever given. -/
def agreeing : Oracle Unit :=
  .ofFunctions (fun _ _ => .ok true) fun _ => .error (.oracle "no guard")

theorem merging_collapses_cascade :
    let s : Session Unit := { graph := Graph.empty.afterAll cascade, memory := () }
    s.graph.nodes.size < 9 ∧ ∃ report s', EStateM.run (Merging.run agreeing 9) s = .ok report s' ∧
      report.groups.map (·.members) = [[2, 3], [5, 6]] ∧ report.rounds < 9 ∧
      EStateM.run (Merging.run agreeing 9) { graph := s'.graph, memory := () } =
        .ok {} { graph := s'.graph, memory := () } := by
  intro s
  have hsize : s.graph.nodes.size < 9 := by decide +kernel
  have hagrees : ∀ a b m, ∃ m', (agreeing.mergeable a b).run m = .ok true m' := fun _ _ m =>
    ⟨m, rfl⟩
  obtain ⟨report, s', hrun, hrounds, -, -, hagain⟩ :=
    reachable_cascade.merging_collapses hagrees () hsize
  obtain ⟨report', s'', hrun', hgroups⟩ := exists_ok_of_endsWith
    (p := fun report : Report => report.groups.map (·.members) == [[2, 3], [5, 6]])
    (r := EStateM.run (Merging.run agreeing 9) s) (by decide +kernel)
  rw [hrun] at hrun'
  cases hrun'
  exact ⟨hsize, report, s', hrun, beq_iff_eq.mp hgroups, hrounds, hagain () 9⟩

end StateGraph
