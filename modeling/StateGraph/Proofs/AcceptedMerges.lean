-- Only what the oracle has accepted is merged. An answer stands for the whole
-- session, but a positive one is used in its own round only: after it one of its
-- two nodes has been merged, or is a branch of a split that is stuck.
import StateGraph.Proofs.Answers
import StateGraph.Proofs.Failures
import StateGraph.Proofs.Sessions
import StateGraph.Proofs.StuckSplits

namespace StateGraph

open StateGraph.Graph (Spent CurrentOrSpent)

namespace Merging

variable {σ α : Type} {oracle : Oracle σ} {s s' : Session σ}

/-! ## Plans ask nothing -/

section Unasked

variable {I J : Session σ → Prop}

/-- What changes of the graph and guards keep, a plan keeps. -/
theorem maintains_carryOutIfCurrent
    (hupdate : ∀ {β : Type} (change : Update β), Maintains I J (update change))
    (hguards : ∀ guards, Maintains I J (consult (oracle.mergeGuards guards))) (p : Plan) :
    Maintains I J (carryOutIfCurrent oracle p) := by
  have hprepare : ∀ c ∈ p.cliques, Maintains I J (prepare oracle p.set c) := fun c _ =>
    (hupdate _).bind fun _ => (hguards _).bind fun _ => .pure _
  have hcarry : Maintains I J (carryOut oracle p) := by
    unfold carryOut
    refine maintains_get.bind fun _ => (hupdate _).bind fun config => ?_
    split
    · exact (hupdate _).bind fun bs => (hupdate _).bind fun r => .pure _
    · exact (Maintains.mapM hprepare).bind fun parts => hupdate _
  unfold carryOutIfCurrent
  refine maintains_get.bind fun s => ?_
  split
  · exact hcarry
  · exact .pure []

variable (log : List Question)

theorem update_keeps_log (change : Update α) :
    Maintains (·.questions = log) (·.questions = log) (update change : Merging σ α) := by
  intro s hs
  rw [update_run]
  cases change.run s.graph <;> exact hs

theorem consult_keeps_log (question : EStateM Error σ α) :
    Maintains (·.questions = log) (·.questions = log) (consult question) := by
  intro s hs
  rw [consult_run]
  cases question.run s.memory <;> exact hs

/-- A plan is carried out without another question about a pair, even if it fails. -/
theorem carryOutIfCurrent_keeps_log (oracle : Oracle σ) (p : Plan) :
    Maintains (·.questions = log) (·.questions = log) (carryOutIfCurrent oracle p) :=
  maintains_carryOutIfCurrent (update_keeps_log log) (fun _ => consult_keeps_log log _) p

end Unasked

theorem update_log (change : Update α) (s : Session σ) :
    (stateOf (EStateM.run (update change) s)).questions = s.questions :=
  (update_keeps_log s.questions change).stateOf (fun _ h => h) rfl

theorem carryOut_all_log (oracle : Oracle σ) (plans : List Plan) (s : Session σ) :
    (stateOf (EStateM.run (plans.mapM (carryOutIfCurrent oracle)) s)).questions = s.questions :=
  (Maintains.mapM fun p _ => carryOutIfCurrent_keeps_log s.questions oracle p).stateOf
    (fun _ h => h) rfl

/-- All questions of a round are put while it makes its plans. -/
theorem round_log (oracle : Oracle σ) (report : Report) (s : Session σ) :
    (stateOf (EStateM.run (round oracle report) s)).questions =
      (stateOf (EStateM.run (s.graph.branchSets.mapM (discover oracle)) s)).questions := by
  have hends := round_ends oracle report s
  generalize EStateM.run (round oracle report) s = r at hends
  cases hends with
  | asking hstops =>
    rw [hstops]
    rfl
  | idle hfound _ =>
    rw [hfound]
    rfl
  | @guarding found s₁ s' e hfound hstops =>
    have hcarry := carryOut_all_log oracle (plansOf found) s₁
    rw [hstops] at hcarry
    rw [hfound]
    exact hcarry
  | @settling found s₁ s₂ s' groups e hfound hcarried hstops =>
    have hcarry := carryOut_all_log oracle (plansOf found) s₁
    have hsettle := update_log Update.propagate s₂
    rw [hcarried] at hcarry
    rw [hstops] at hsettle
    rw [hfound]
    exact hsettle.trans hcarry
  | @done found s₁ s₂ s₃ groups n hfound hcarried hsettled _ =>
    have hcarry := carryOut_all_log oracle (plansOf found) s₁
    have hsettle := update_log Update.propagate s₂
    rw [hcarried] at hcarry
    rw [hsettled] at hsettle
    rw [hfound]
    exact hsettle.trans hcarry

/-! ## The plans of a round -/

theorem branchSets_sources (g : Graph) :
    g.branchSets.Pairwise fun a b => a.source ≠ b.source := by
  refine List.pairwise_filterMap.mpr (g.splits.keys_nodup.imp fun hne a ha b hb he => hne ?_)
  rw [← (Graph.branchSet?_eq_some ha).1, ← (Graph.branchSet?_eq_some hb).1, he]

/-- The plans of a round are for different splits. -/
theorem plansOf_sources_nodup {g : Graph} {found : List (Plan × Nat)}
    (h : found.map (·.1.set) = g.branchSets) :
    (plansOf found).Pairwise fun p q => p.set.source ≠ q.set.source := by
  have hsets := branchSets_sources g
  rw [← h, List.pairwise_map] at hsets
  have hplans : (found.map (·.1)).Pairwise fun p q => p.set.source ≠ q.set.source :=
    List.pairwise_map.mpr hsets
  exact hplans.filter _

/-- What has been found out with all splits has been found out with the plans that
merge something. -/
theorem Discovered.plansOf {found : List (Plan × Nat)}
    (h : Discovered oracle (found.map (·.1)) s s') :
    Discovered oracle (Merging.plansOf found) s s' where
  graph := h.graph
  kept := h.kept
  new := by
    intro q hq hreply
    refine (h.new q hq hreply).imp_right fun ⟨haccepted, p, hp, c, hc, hin⟩ =>
      ⟨haccepted, p, List.mem_filter.mpr ⟨hp, ?_⟩, c, hc, hin⟩
    simpa using List.ne_nil_of_mem hc
  backed := fun p hp => h.backed p (List.mem_filter.mp hp).1

/-- A round asks about the splits that qualify when it begins. -/
theorem discovered_of_run {found : List (Plan × Nat)}
    (hrun : EStateM.run (s.graph.branchSets.mapM (discover oracle)) s = .ok found s') :
    Discovered oracle (Merging.plansOf found) s s' := by
  have hqualified : ∀ set ∈ s.graph.branchSets, ∃ cases, Qualified s.graph set cases :=
    fun _ => Graph.qualified_of_mem
  exact (discover_all_ensures oracle hqualified found s' hrun).plansOf

theorem Carried.spent {p : Plan} {groups : List Group} {g g' : Graph} (h : Carried p groups g g')
    {id : NodeId} (hid : Spent g id) : Spent g' id := by
  obtain ⟨paths, hreworked, -⟩ := h
  exact hreworked.spent hid

theorem Carried.currentOrSpent {p : Plan} {groups : List Group} {g g' : Graph}
    (h : Carried p groups g g') {set : BranchSet} (hne : set.source ≠ p.set.source)
    (hset : CurrentOrSpent g set) : CurrentOrSpent g' set := by
  obtain ⟨paths, hreworked, -⟩ := h
  exact hreworked.currentOrSpent hne hset

/-- The members of a plan that has been carried out are gone. -/
theorem Carried.members_spent {p : Plan} {groups : List Group} {g g' : Graph}
    (h : Carried p groups g g') {c : List NodeId} (hc : c ∈ p.cliques) {m : NodeId} (hm : m ∈ c) :
    Spent g' m := by
  obtain ⟨paths, hreworked, -, hcliques⟩ := h
  rw [← hcliques] at hc
  obtain ⟨path, hpath, rfl⟩ := List.mem_map.mp hc
  exact hreworked.absorbed_spent ⟨path, hpath, hm⟩

/-- After its turn no member of a plan is ever merged again. -/
theorem turn_spent {p : Plan} {groups : List Group} (h : s.graph.Sound) (hp : p.Fits)
    (hne : p.cliques ≠ []) (hset : CurrentOrSpent s.graph p.set)
    (hrun : EStateM.run (carryOutIfCurrent oracle p) s = .ok groups s') :
    ∀ c ∈ p.cliques, ∀ m ∈ c, Spent s'.graph m := by
  intro c hc m hm
  rcases carryOutIfCurrent_ok hrun with ⟨hstale, -, rfl⟩ | ⟨hcurrent, hcarried⟩
  · obtain ⟨b, hb, rfl⟩ := List.mem_map.mp (hp.mem c hc m hm)
    exact hset.resolve_left hstale b hb
  · exact (carried_of_run h hp hne hcurrent hcarried).members_spent hc hm

/-- A turn leaves what is spent spent, and other splits as they were or stuck. -/
theorem turn_keeps {p : Plan} {groups : List Group} (h : s.graph.Sound) (hp : p.Fits)
    (hne : p.cliques ≠ []) (hrun : EStateM.run (carryOutIfCurrent oracle p) s = .ok groups s') :
    (∀ id, Spent s.graph id → Spent s'.graph id) ∧
      ∀ set : BranchSet, set.source ≠ p.set.source → CurrentOrSpent s.graph set →
        CurrentOrSpent s'.graph set := by
  rcases carryOutIfCurrent_ok hrun with ⟨-, -, rfl⟩ | ⟨hcurrent, hcarried⟩
  · exact ⟨fun _ => id, fun _ _ => id⟩
  · have hcarried := carried_of_run h hp hne hcurrent hcarried
    exact ⟨fun _ => hcarried.spent, fun _ => hcarried.currentOrSpent⟩

/-- Once all plans have had their turn, no member of any is ever merged again. -/
theorem carryOut_all_spent {plans : List Plan} {all : List (List Group)} (h : s.graph.Sound)
    (hfits : ∀ p ∈ plans, p.Fits ∧ p.cliques ≠ [])
    (hsources : plans.Pairwise fun p q => p.set.source ≠ q.set.source)
    (hsets : ∀ p ∈ plans, CurrentOrSpent s.graph p.set)
    (hrun : EStateM.run (plans.mapM (carryOutIfCurrent oracle)) s = .ok all s') :
    (∀ id, Spent s.graph id → Spent s'.graph id) ∧
      ∀ p ∈ plans, ∀ c ∈ p.cliques, ∀ m ∈ c, Spent s'.graph m := by
  induction plans generalizing s all with
  | nil =>
    cases hrun
    exact ⟨fun _ => id, by simp⟩
  | cons q plans ih =>
    obtain ⟨groups, s₁, more, hq, hrest, -⟩ := carryOut_cons_ok hrun
    obtain ⟨hfitsq, hneq⟩ := hfits q List.mem_cons_self
    obtain ⟨hfirst, hothers⟩ := List.pairwise_cons.mp hsources
    have hkeeps := carryOutIfCurrent_keeps oracle h hfitsq hneq
    rw [hq] at hkeeps
    obtain ⟨hspent, hcurrent⟩ := turn_keeps h hfitsq hneq hq
    obtain ⟨hspent', hmembers⟩ := ih hkeeps.sound
      (fun p hp => hfits p (List.mem_cons_of_mem _ hp)) hothers
      (fun p hp => hcurrent p.set (hfirst p hp).symm (hsets p (List.mem_cons_of_mem _ hp))) hrest
    refine ⟨fun id hid => hspent' id (hspent id hid), List.forall_mem_cons.mpr ⟨?_, hmembers⟩⟩
    intro c hc m hm
    exact hspent' m (turn_spent h hfitsq hneq (hsets q List.mem_cons_self) hq c hc m hm)

/-! ## The log from round to round -/

/-- No positive answer of the log is of use any more. -/
def Answered (s : Session σ) : Prop :=
  ∀ q ∈ s.questions, q.reply = .ok true → Spent s.graph q.first

/-- What the plans of a round merge has been accepted, of the nodes as they are. -/
theorem Discovered.accepted {plans : List Plan} (h : Discovered oracle plans s s')
    (hs : Answered s) (hsound : s.graph.Sound) {p : Plan} (hp : p ∈ plans)
    (hset : p.set ∈ s.graph.branchSets) (hfits : p.Fits) :
    ∀ c ∈ p.cliques, ∀ a ∈ c, ∀ b ∈ c, a < b → s.graph.Accepted oracle a b := by
  intro c hc a ha b hb hlt
  obtain ⟨q, hq, hreply, rfl, rfl⟩ := h.backed p hp c hc a ha b hb hlt
  rcases h.new q hq hreply with hold | ⟨haccepted, -⟩
  -- an old answer would be about a branch that can be merged no more
  · obtain ⟨cases, hqual⟩ := Graph.qualified_of_mem hset
    obtain ⟨br, hbr, he⟩ := List.mem_map.mp (hfits.mem c hc _ ha)
    exact absurd (he ▸ hs q hold hreply) (Graph.not_spent_of_qualified hsound hqual hbr)
  · exact haccepted

theorem round_answered {report report' : Report} (h : s.graph.Sound) (hs : Answered s)
    (hrun : EStateM.run (round oracle report) s = .ok (report', true) s') : Answered s' := by
  have hends := round_ends oracle report s
  rw [hrun] at hends
  generalize hmore : true = more at hends
  cases hends with
  | idle => cases hmore
  | @done found s₁ s₂ s₃ groups n hfound hcarried hsettled =>
    obtain ⟨hgraph, hplans⟩ := (discover_all oracle s.graph.branchSets).ok hfound
    have hsources := plansOf_sources_nodup ((discover_each oracle s.graph.branchSets).ok hfound).2.1
    have hdiscovered := discovered_of_run hfound
    have hunasked := carryOut_all_log oracle (plansOf found) s₁
    rw [hcarried] at hunasked
    have hkeeps := carryOut_all oracle (hgraph ▸ h) fun p hp => (hplans p hp).2
    rw [hcarried] at hkeeps
    obtain ⟨hspent, hmembers⟩ := carryOut_all_spent (hgraph ▸ h) (fun p hp => (hplans p hp).2)
      hsources (fun p hp => Or.inl (hgraph ▸ Graph.branchSet?_of_mem (hplans p hp).1)) hcarried
    obtain ⟨g', hg', rfl⟩ := propagate_ok hkeeps.sound hsettled
    intro q hq hreply
    refine hg'.toReconfigured.spent ?_
    rcases hdiscovered.new q (hunasked ▸ hq) hreply with hold | ⟨-, p, hp, c, hc, hin⟩
    · exact hspent _ (hgraph ▸ hs q hold hreply)
    · exact hmembers p hp c hc _ hin

/-- A session carries out only plans for splits that qualify, and whatever they
bring together the oracle has accepted, of the nodes as they then are. -/
theorem CarriedIn.accepted {p : Plan} {groups : List Group} {limit : Nat} {g g' : Graph}
    (hc : CarriedIn oracle p groups g g' limit s) (h : s.graph.Sound) (hs : Answered s) :
    g.branchSet? p.set.source = some p.set ∧
      ∀ c ∈ p.cliques, ∀ a ∈ c, ∀ b ∈ c, a < b → g.Accepted oracle a b := by
  induction hc with
  | @now limit s s₁ s₂ s₃ found hfound hturn hbefore hafter =>
    obtain ⟨hgraph, hplans⟩ := (discover_all oracle s.graph.branchSets).ok hfound
    have hdiscovered := discovered_of_run hfound
    obtain ⟨hp, hcurrent, -⟩ := hturn.carried (hgraph ▸ h) fun q hq => (hplans q hq).2
    obtain ⟨hset, hfits, -⟩ := hplans p hp
    have huntouched := BranchSet.untouched (Graph.branchSet?_of_mem hset) hcurrent
    rw [← hbefore]
    refine ⟨hcurrent, fun c hc a ha b hb hlt => ?_⟩
    obtain ⟨ca, cb, hca, hcb, haccepts⟩ :=
      hdiscovered.accepted hs h hp hset hfits c hc a ha b hb hlt
    obtain ⟨bra, hbra, rfl⟩ := List.mem_map.mp (hfits.mem c hc a ha)
    obtain ⟨brb, hbrb, rfl⟩ := List.mem_map.mp (hfits.mem c hc b hb)
    exact ⟨ca, cb, (huntouched.node bra hbra).trans hca, (huntouched.node brb hbrb).trans hcb,
      haccepts⟩
  | @later limit s s' report report' hround _ ih =>
    have hkeeps := round_keeps oracle report h
    rw [hround] at hkeeps
    exact ih hkeeps.sound (round_answered h hs hround)

end Merging

open Merging

theorem Oracle.accepts_ofFunctions {mergeable : Config → Config → Except Error Bool}
    {mergeGuards : List Effect → Except Error Effect} {a b : Config}
    (h : (Oracle.ofFunctions mergeable mergeGuards).Accepts a b) : mergeable a b = .ok true := by
  obtain ⟨m, m', hrun⟩ := h
  simp only [Oracle.ofFunctions] at hrun
  cases hans : mergeable a b with
  | error e =>
    rw [hans] at hrun
    cases hrun
  | ok yes =>
    rw [hans] at hrun
    cases hrun
    rfl

/-- No plan merges what should stay apart. Right before it is carried out its split
qualifies, the members of each group are branches of that split, and the oracle says
of any two members as they are that they may share a path. The groups that a session
reports are those of such plans. -/
theorem Reachable.merges_only_accepted {g : Graph} (h : Reachable g)
    (mergeable : Config → Config → Except Error Bool)
    (mergeGuards : List Effect → Except Error Effect) (limit : Nat) :
    let oracle := Oracle.ofFunctions mergeable mergeGuards
    let s : Session Unit := { graph := g, memory := () }
    (∀ p groups g₁ g₂, CarriedIn oracle p groups g₁ g₂ limit s →
      (∃ cases, Qualified g₁ p.set cases) ∧ ∀ r ∈ groups, r.splitSource = p.set.source ∧
        (∀ m ∈ r.members, BranchesTo g₁.splits r.splitSource m) ∧
        ∀ a ∈ r.members, ∀ b ∈ r.members, a < b → ∃ ca cb,
          g₁.nodes.get? a = some ca ∧ g₁.nodes.get? b = some cb ∧ mergeable ca cb = .ok true) ∧
      ∀ report s', EStateM.run (Merging.run oracle limit) s = .ok report s' →
        ∀ r ∈ report.groups, ∃ p groups g₁ g₂,
          CarriedIn oracle p groups g₁ g₂ limit s ∧ r ∈ groups := by
  intro oracle s
  refine ⟨fun p groups g₁ g₂ hc => ?_, fun report s' hrun r hr => ?_⟩
  · have hstart : Answered s := fun q hq => by cases hq
    obtain ⟨hcurrent, haccepted⟩ := hc.accepted h.sound hstart
    obtain ⟨paths, hreworked, rfl, hcliques⟩ := hc.carried h.sound
    refine ⟨(Graph.branchSet?_eq_some hcurrent).2, fun r hr => ?_⟩
    obtain ⟨path, hpath, rfl⟩ := List.mem_map.mp hr
    have hclique : path.group.members ∈ p.cliques := hcliques ▸ List.mem_map_of_mem hpath
    have hsource := hreworked.source path hpath
    refine ⟨hsource, fun m hm => ?_, fun a ha b hb hlt => ?_⟩
    · exact (hreworked.branchesTo_iff ⟨path, hpath, hm⟩).mpr hsource
    · obtain ⟨ca, cb, hca, hcb, haccepts⟩ := haccepted _ hclique a ha b hb hlt
      exact ⟨ca, cb, hca, hcb, Oracle.accepts_ofFunctions haccepts⟩
  · exact (exists_carriedIn hrun hr).resolve_left (by simp)

theorem merges_only_accepted_fork :
    let oracle := Oracle.ofFunctions (fun a b => .ok (a.term == b.term)) fun gs => .ok (anyOf gs)
    let s : Session Unit := { graph := Graph.empty.afterAll fork, memory := () }
    ∃ report s' p groups g₁ g₂, EStateM.run (Merging.run oracle 64) s = .ok report s' ∧
      report.groups.map (·.members) = [[2, 3]] ∧ CarriedIn oracle p groups g₁ g₂ 64 s ∧
      (∃ cases, Qualified g₁ p.set cases) ∧ ∃ c₂ c₃,
        g₁.nodes.get? 2 = some c₂ ∧ g₁.nodes.get? 3 = some c₃ ∧ c₂.term == c₃.term := by
  intro oracle s
  obtain ⟨report, s', hrun, hgroups⟩ := exists_ok_of_endsWith
    (p := fun report : Report => report.groups.map (·.members) == [[2, 3]])
    (r := EStateM.run (Merging.run oracle 64) s) (by decide +kernel)
  have hgroups : report.groups.map (·.members) = [[2, 3]] := beq_iff_eq.mp hgroups
  obtain ⟨r, hr, hmembers⟩ : ∃ r ∈ report.groups, r.members = [2, 3] :=
    List.mem_map.mp (hgroups ▸ List.mem_singleton_self _)
  obtain ⟨haccepted, hreported⟩ := reachable_fork.merges_only_accepted
    (fun a b => .ok (a.term == b.term)) (fun gs => .ok (anyOf gs)) 64
  obtain ⟨p, groups, g₁, g₂, hc, hin⟩ := hreported report s' hrun r hr
  obtain ⟨hqualified, hall⟩ := haccepted p groups g₁ g₂ hc
  obtain ⟨c₂, c₃, hc₂, hc₃, hyes⟩ :=
    (hall r hin).2.2 2 (by simp [hmembers]) 3 (by simp [hmembers]) (by decide)
  exact ⟨report, s', p, groups, g₁, g₂, hrun, hgroups, hc, hqualified, c₂, c₃, hc₂, hc₃,
    Except.ok.inj hyes⟩

end StateGraph
