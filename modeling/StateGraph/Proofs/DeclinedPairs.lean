-- Where merging stops by itself. Every pair of branches that it leaves has been
-- declined, with the terms it still has. But an answer stands for the whole session,
-- and path conditions do not: a pair can be acceptable again at the end.
import StateGraph.Proofs.AcceptedMerges

namespace StateGraph

/-! ## Terms that names stand for -/

namespace Graph

variable {g g' : Graph} {set : BranchSet} {paths : List MergedPath}

/-- A name has been given out, and if it still is a node it holds a term. -/
structure Recalls (g : Graph) (id : NodeId) (t : Term) : Prop where
  given : id < g.next
  term : ∀ c, g.nodes.get? id = some c → c.term = t

/-- What a name stands for it stands for later as well. -/
def KeepsTerms (g g' : Graph) : Prop := ∀ id t, g.Recalls id t → g'.Recalls id t

theorem Sound.recalls (h : Sound g) {id : NodeId} {c : Config} (hid : g.nodes.get? id = some c) :
    g.Recalls id c.term where
  given := (h.in_range id (Table.mem_of_get? hid)).2
  term := by
    intro c' hc'
    rw [hid] at hc'
    rw [Option.some.inj hc']

theorem Settles.keepsTerms (h : Settles g g') : KeepsTerms g g' := by
  intro id t hid
  refine ⟨h.next_eq ▸ hid.given, fun c' hc' => ?_⟩
  obtain ⟨c, hc⟩ := Table.mem_iff.mp ((h.mem_iff id).mp (Table.mem_of_get? hc'))
  rw [h.terms id c c' hc hc', hid.term c hc]

theorem Reworked.keepsTerms (h : Reworked g g' set paths) : KeepsTerms g g' := by
  intro id t hid
  refine ⟨Nat.lt_of_lt_of_le hid.given h.grows.next_le, fun c hc => ?_⟩
  have hin := Table.mem_of_get? hc
  have hold : id ∈ g.nodes :=
    (h.grows.fresh id hin).resolve_right (Nat.not_le.mpr hid.given)
  exact hid.term c ((h.node id hold ((h.mem_nodes hold).mp hin)).symm.trans hc)

theorem composes_keepsTerms : Merging.Composes KeepsTerms where
  refl := fun _ _ _ hid => hid
  settles := fun _ h => h.keepsTerms
  trans := fun h h' id t hid => h' id t (h id t hid)

end Graph

/-- An oracle without a memory that always decides. -/
def Oracle.deciding (related : Config → Config → Bool) (guardOf : List Effect → Effect) :
    Oracle Unit :=
  ofFunctions (fun a b => .ok (related a b)) fun guards => .ok (guardOf guards)

theorem Oracle.decides_deciding (related : Config → Config → Bool)
    (guardOf : List Effect → Effect) : (deciding related guardOf).Decides where
  mergeable := by
    intro a b m e m' hrun
    cases hrun
  mergeGuards := by
    intro guards m e m' hrun
    cases hrun

namespace Merging

/-! ## Every pair is decided -/

section Decided

variable {σ : Type} {oracle : Oracle σ} {s s' : Session σ}

/-- Two nodes have a negative answer. -/
def Declined (questions : List Question) (a b : NodeId) : Prop :=
  ∃ q ∈ questions, q.first = a ∧ q.second = b ∧ q.reply = .ok false

theorem Declined.mono {questions more : List Question} {a b : NodeId}
    (h : Declined questions a b) (hkept : ∀ q ∈ questions, q ∈ more) : Declined more a b := by
  obtain ⟨q, hq, hdeclined⟩ := h
  exact ⟨q, hkept q hq, hdeclined⟩

/-- Some pairs have been decided on the way from one state of a search to another:
each is connected now, or declined. -/
structure Decided (s : Session σ) (found : Compatibility) (ps : List (Branch × Branch))
    (found' : Compatibility) (s' : Session σ) : Prop where
  kept : ∀ q ∈ s.questions, q ∈ s'.questions
  vertex : ∀ v ∈ found.vertices, v ∈ found'.vertices
  connected : ∀ a b, found.connected a b = true → found'.connected a b = true
  decided : ∀ p ∈ ps, found'.connected p.1.node p.2.node = true ∨
    Declined s'.questions p.1.node p.2.node

theorem weigh_decides {found : Compatibility × Nat} {p : Branch × Branch}
    (hne : p.1.node ≠ p.2.node) :
    Ensures s (weigh oracle found p) fun found' s' => Decided s found.1 [p] found'.1 s' := by
  obtain ⟨a, b⟩ := p
  intro found' s' hrun
  obtain ⟨yes, hfound, hlog⟩ := weigh_ok hrun
  have hkept : ∀ q ∈ s.questions, q ∈ s'.questions := by
    rcases hlog with ⟨-, rfl⟩ | ⟨m, -, rfl⟩
    · exact fun _ hq => hq
    · exact fun _ hq => List.mem_append_left _ hq
  rw [hfound]
  cases yes with
  | true =>
    refine ⟨hkept, fun v hv => Compatibility.mem_vertices_connect.mpr (Or.inl hv),
      fun x y hxy => Compatibility.connected_connect.mpr (Or.inl hxy),
      List.forall_mem_singleton.mpr (Or.inl ?_)⟩
    exact Compatibility.connected_connect.mpr (Or.inr ⟨hne, Or.inl ⟨rfl, rfl⟩⟩)
  | false =>
    refine ⟨hkept, fun _ hv => hv, fun _ _ hab => hab, List.forall_mem_singleton.mpr (Or.inr ?_)⟩
    rcases hlog with ⟨hknown, rfl⟩ | ⟨m, -, rfl⟩
    · obtain ⟨q, hq, hreply, hfirst, hsecond⟩ := known?_eq_some hknown
      exact ⟨q, hq, hfirst, hsecond, hreply⟩
    · exact ⟨_, List.mem_append_right _ (List.mem_singleton_self _), rfl, rfl, rfl⟩

theorem weigh_all_decides {found : Compatibility × Nat} {ps : List (Branch × Branch)}
    (hne : ∀ p ∈ ps, p.1.node ≠ p.2.node) :
    Ensures s (ps.foldlM (weigh oracle) found) fun found' s' =>
      Decided s found.1 ps found'.1 s' := by
  induction ps generalizing found s with
  | nil => exact .pure ⟨fun _ hq => hq, fun _ hv => hv, fun _ _ hab => hab, by simp⟩
  | cons p ps ih =>
    rw [List.foldlM_cons]
    refine (weigh_decides (hne p List.mem_cons_self)).bind fun found₁ s₁ hfirst => ?_
    intro found₂ s₂ hrun
    have hrest := ih (fun q hq => hne q (List.mem_cons_of_mem _ hq)) found₂ s₂ hrun
    refine ⟨fun q hq => hrest.kept q (hfirst.kept q hq),
      fun v hv => hrest.vertex v (hfirst.vertex v hv),
      fun a b hab => hrest.connected a b (hfirst.connected a b hab),
      List.forall_mem_cons.mpr ⟨?_, hrest.decided⟩⟩
    exact (hfirst.decided p (List.mem_singleton_self p)).imp (hrest.connected _ _)
      fun hno => hno.mono hrest.kept

/-- A split for which no clique is found has all its pairs declined. -/
theorem discover_decides {set : BranchSet} (hnd : (set.branches.map (·.node)).Nodup) :
    Ensures s (discover oracle set) fun r s' => (∀ q ∈ s.questions, q ∈ s'.questions) ∧
      (r.1.cliques = [] → ∀ p ∈ pairs set.branches,
        Declined s'.questions p.1.node p.2.node) := by
  have hne : ∀ p ∈ pairs set.branches, p.1.node ≠ p.2.node := fun p hp =>
    rel_of_mem_pairs (List.pairwise_map.mp hnd) hp
  refine Ensures.bind (x := compatibility oracle set)
    (Q := fun found s' => Decided s (.ofVertices (set.branches.map (·.node)))
      (pairs set.branches) found.1 s') (weigh_all_decides hne) fun found s' h => .pure ?_
  refine ⟨h.kept, fun hnone p hp => (h.decided p hp).resolve_left fun hconnected => ?_⟩
  have hvertex : ∀ b ∈ set.branches, b.node ∈ found.1.vertices := fun b hb =>
    h.vertex b.node (Compatibility.mem_vertices_ofVertices.mpr (List.mem_map_of_mem hb))
  obtain ⟨h₁, h₂⟩ := mem_of_mem_pairs hp
  obtain ⟨c, hc, -⟩ := Compatibility.exists_mem_maximalCliques (hvertex _ h₁) (hvertex _ h₂)
    hconnected
  have hc : c ∈ ([] : List (List NodeId)) := hnone ▸ hc
  cases hc

theorem discover_all_decides {sets : List BranchSet}
    (hnd : ∀ set ∈ sets, (set.branches.map (·.node)).Nodup) :
    Ensures s (sets.mapM (discover oracle)) fun found s' => (∀ q ∈ s.questions, q ∈ s'.questions) ∧
      (plansOf found = [] → ∀ set ∈ sets, ∀ p ∈ pairs set.branches,
        Declined s'.questions p.1.node p.2.node) := by
  induction sets generalizing s with
  | nil => exact .pure ⟨fun _ hq => hq, by simp⟩
  | cons set sets ih =>
    rw [List.mapM_cons]
    refine (discover_decides (hnd set List.mem_cons_self)).bind fun r s₁ ⟨hkept, hdeclined⟩ => ?_
    refine (ih fun other hother => hnd other (List.mem_cons_of_mem _ hother)).bind
      fun more s₂ ⟨hkept', hdeclined'⟩ => .pure ?_
    refine ⟨fun q hq => hkept' q (hkept q hq), fun hnone => ?_⟩
    have hall : ∀ f ∈ r :: more, f.1.cliques = [] := by
      intro f hf
      have hno := List.filter_eq_nil_iff.mp hnone f.1 (List.mem_map_of_mem hf)
      simpa using hno
    refine List.forall_mem_cons.mpr ⟨fun p hp => ?_, hdeclined' ?_⟩
    · exact (hdeclined (hall r List.mem_cons_self) p hp).mono hkept'
    · refine List.filter_eq_nil_iff.mpr fun p hp => ?_
      obtain ⟨f, hf, rfl⟩ := List.mem_map.mp hp
      simp [hall f (List.mem_cons_of_mem _ hf)]

end Decided

/-! ## What the log says of the nodes as they are -/

section Log

variable {related : Config → Config → Bool} {guardOf : List Effect → Effect}
  {s s' : Session Unit}

/-- A question has been answered by the relation, and it was about terms that the two
nodes still hold. -/
structure Stands (related : Config → Config → Bool) (g : Graph) (q : Question) : Prop where
  reply : q.reply = .ok (related q.firstConfig q.secondConfig)
  first : g.Recalls q.first q.firstConfig.term
  second : g.Recalls q.second q.secondConfig.term

/-- All questions of a session stand. -/
def Standing (related : Config → Config → Bool) (s : Session Unit) : Prop :=
  ∀ q ∈ s.questions, Stands related s.graph q

theorem weigh_standing (h : s.graph.Sound) (hs : Standing related s) {a b : Branch}
    (ha : s.graph.nodes.get? a.node = some a.config)
    (hb : s.graph.nodes.get? b.node = some b.config) (found : Compatibility × Nat) :
    Ensures s (weigh (.deciding related guardOf) found (a, b)) fun _ s' =>
      s'.graph = s.graph ∧ Standing related s' := by
  intro found' s' hrun
  obtain ⟨yes, -, ⟨-, rfl⟩ | ⟨m, hans, rfl⟩⟩ := weigh_ok hrun
  · exact ⟨rfl, hs⟩
  · have hyes : related a.config b.config = yes := by
      cases hans
      rfl
    refine ⟨rfl, fun q hq => ?_⟩
    rcases List.mem_append.mp hq with hq | hq
    · exact hs q hq
    · rw [List.mem_singleton.mp hq]
      exact ⟨by rw [hyes], h.recalls ha, h.recalls hb⟩

theorem discover_all_standing (h : s.graph.Sound) (hs : Standing related s) :
    Ensures s (s.graph.branchSets.mapM (discover (.deciding related guardOf))) fun _ s' =>
      s'.graph = s.graph ∧ Standing related s' := by
  refine Ensures.mapM (I := fun s' => s'.graph = s.graph ∧ Standing related s')
    (fun set hset s₁ hs₁ => ?_) ⟨rfl, hs⟩
  obtain ⟨cases, hq⟩ := Graph.qualified_of_mem hset
  refine Ensures.bind (x := compatibility (.deciding related guardOf) set)
    (Q := fun _ s' => s'.graph = s.graph ∧ Standing related s') ?_ fun _ _ hs' => .pure hs'
  refine Ensures.foldlM (fun found s₂ pair hpair ⟨hgraph, hs₂⟩ => ?_) hs₁
  obtain ⟨a, b⟩ := pair
  obtain ⟨ha, hb⟩ := mem_of_mem_pairs hpair
  rw [← hgraph] at h hq ⊢
  exact weigh_standing h hs₂ (hq.branch a ha).config (hq.branch b hb).config found

theorem round_keepsTerms {σ : Type} (oracle : Oracle σ) {s : Session σ} (h : s.graph.Sound)
    (report : Report) :
    Graph.KeepsTerms s.graph (stateOf (EStateM.run (round oracle report) s)).graph := by
  refine round_related Graph.composes_keepsTerms h report fun p groups g g' hc => ?_
  obtain ⟨paths, hreworked, -⟩ := hc.carried h
  exact hreworked.keepsTerms

theorem round_standing {report : Report} {r : Report × Bool} (h : s.graph.Sound)
    (hs : Standing related s)
    (hrun : EStateM.run (round (.deciding related guardOf) report) s = .ok r s') :
    Standing related s' := by
  have hterms := round_keepsTerms (.deciding related guardOf) h report
  have hends := round_ends (.deciding related guardOf) report s
  rw [hrun] at hends hterms
  cases hends with
  | idle hfound _ => exact (discover_all_standing h hs _ _ hfound).2
  | done hfound =>
    obtain ⟨hgraph, hs₁⟩ := discover_all_standing h hs _ _ hfound
    have hlog := round_log (.deciding related guardOf) report s
    rw [hrun, hfound] at hlog
    intro q hq
    have hq := hs₁ q (hlog ▸ hq)
    rw [hgraph] at hq
    exact ⟨hq.reply, hterms _ _ hq.first, hterms _ _ hq.second⟩

end Log

/-! ## Where a session stops -/

section Stops

variable {σ : Type} {oracle : Oracle σ} {s s' : Session σ}

/-- The first plan of a round is always carried out, so a round that merges nothing
has found nothing to merge. -/
theorem round_stops {report report' : Report} (h : s.graph.Sound)
    (hrun : EStateM.run (round oracle report) s = .ok (report', false) s') :
    ∃ found, EStateM.run (s.graph.branchSets.mapM (discover oracle)) s = .ok found s' ∧
      plansOf found = [] ∧ report' = report.asked found := by
  have hends := round_ends oracle report s
  rw [hrun] at hends
  generalize hmore : false = more at hends
  cases hends with
  | idle hfound hnothing => exact ⟨_, hfound, hnothing, rfl⟩
  | @done found s₁ s₂ s₃ groups n hfound hcarried _ hsome =>
    obtain ⟨p, plans, hplans⟩ := List.exists_cons_of_ne_nil hsome
    obtain ⟨hgraph, hfits⟩ := (discover_all oracle s.graph.branchSets).ok hfound
    obtain ⟨hset, hp, hne⟩ := hfits p (hplans ▸ List.mem_cons_self)
    rw [hplans] at hcarried
    obtain ⟨first, s₄, others, hfirst, -, rfl⟩ := carryOut_cons_ok hcarried
    have hcurrent := Graph.branchSet?_of_mem hset
    rw [← hgraph] at h hcurrent
    rcases carryOutIfCurrent_ok hfirst with ⟨hstale, -⟩ | ⟨-, hrun₁⟩
    · exact absurd hcurrent hstale
    · obtain ⟨paths, hreworked, rfl, -⟩ := carried_of_run h hp hne hcurrent hrun₁
      obtain ⟨path, rest, rfl⟩ := List.exists_cons_of_ne_nil hreworked.nonempty
      cases hmore

theorem mem_pairs {xs : List Branch} (h : xs.Pairwise fun a b => a.node < b.node) {a b : Branch}
    (ha : a ∈ xs) (hb : b ∈ xs) (hlt : a.node < b.node) : (a, b) ∈ pairs xs := by
  induction xs with
  | nil => cases ha
  | cons x xs ih =>
    obtain ⟨hx, hxs⟩ := List.pairwise_cons.mp h
    rw [List.mem_cons] at ha hb
    unfold pairs
    rcases ha with rfl | ha <;> rcases hb with rfl | hb
    · exact absurd hlt (Nat.lt_irrefl _)
    · exact List.mem_append_left _ (List.mem_map_of_mem hb)
    · exact absurd hlt (Nat.lt_asymm (hx a ha))
    · exact List.mem_append_right _ (ih hxs ha hb)

/-- No pair of branches of a qualifying split is acceptable as it is. -/
def NoneAccepted (oracle : Oracle σ) (g : Graph) : Prop :=
  ∀ set ∈ g.branchSets, ∀ p ∈ pairs set.branches, ¬ oracle.Accepts p.1.config p.2.config

theorem discovers_nothing (h : s.graph.Sound) (hfresh : s.questions = [])
    (hno : NoneAccepted oracle s.graph) {found : List (Plan × Nat)}
    (hrun : EStateM.run (s.graph.branchSets.mapM (discover oracle)) s = .ok found s') :
    plansOf found = [] := by
  refine List.eq_nil_iff_forall_not_mem.mpr fun p hp => ?_
  obtain ⟨hset, hfits, hne⟩ := ((discover_all oracle s.graph.branchSets).ok hrun).2 p hp
  obtain ⟨cases, hq⟩ := Graph.qualified_of_mem hset
  obtain ⟨c, cliques, hcliques⟩ := List.exists_cons_of_ne_nil hne
  have hc : c ∈ p.cliques := hcliques ▸ List.mem_cons_self
  obtain ⟨a, b, rest, rfl⟩ : ∃ a b rest, c = a :: b :: rest := by
    match c, hfits.large c hc with
    | a :: b :: rest, _ => exact ⟨a, b, rest, rfl⟩
  have hlt : a < b := (List.pairwise_cons.mp (hfits.ascending _ hc)).1 b List.mem_cons_self
  have ha : a ∈ a :: b :: rest := List.mem_cons_self
  have hb : b ∈ a :: b :: rest := List.mem_cons_of_mem _ List.mem_cons_self
  -- without an old answer, two members of a clique have been accepted as they are
  have hanswered : Answered s := fun q hq => by
    rw [hfresh] at hq
    cases hq
  obtain ⟨ca, cb, hca, hcb, haccepts⟩ :=
    (discovered_of_run hrun).accepted hanswered h hp hset hfits _ hc a ha b hb hlt
  obtain ⟨bra, hbra, rfl⟩ := List.mem_map.mp (hfits.mem _ hc a ha)
  obtain ⟨brb, hbrb, rfl⟩ := List.mem_map.mp (hfits.mem _ hc b hb)
  rw [(hq.branch bra hbra).config] at hca
  rw [(hq.branch brb hbrb).config] at hcb
  refine hno p.set hset (bra, brb) (mem_pairs hq.ascending hbra hbrb hlt) ?_
  rw [Option.some.inj hca, Option.some.inj hcb]
  exact haccepts

/-- Where no pair is acceptable, a new session changes nothing. -/
theorem rounds_unchanged (hdecides : oracle.Decides) (h : s.graph.Sound)
    (hfresh : s.questions = []) (hno : NoneAccepted oracle s.graph) (limit : Nat)
    (report : Report) :
    ∃ report' s', EStateM.run (rounds oracle limit report) s = .ok report' s' ∧
      s'.graph = s.graph ∧ report'.groups = report.groups := by
  obtain ⟨report', s', hrun⟩ := rounds_ok hdecides h limit report
  refine ⟨report', s', hrun, ?_⟩
  cases limit with
  | zero =>
    cases hrun
    exact ⟨rfl, rfl⟩
  | succ limit =>
    rw [rounds_succ] at hrun
    have hends := round_ends oracle report s
    cases hround : EStateM.run (round oracle report) s with
    | error e s₁ =>
      rw [hround] at hrun
      cases hrun
    | ok r s₁ =>
      rw [hround] at hrun hends
      cases hends with
      | idle hfound _ =>
        cases hrun
        exact ⟨((discover_all oracle s.graph.branchSets).ok hfound).1, rfl⟩
      | done hfound _ _ hsome => exact absurd (discovers_nothing h hfresh hno hfound) hsome

end Stops

/-- A session that stops by itself leaves a graph in which every pair of branches of a
qualifying split has been declined, and its log stands. -/
theorem rounds_stop {related : Config → Config → Bool} {guardOf : List Effect → Effect}
    {s s' : Session Unit} {limit : Nat} {report report' : Report} (h : s.graph.Sound)
    (hs : Standing related s)
    (hrun : EStateM.run (rounds (.deciding related guardOf) limit report) s = .ok report' s')
    (hlimit : report'.rounds < report.rounds + limit) :
    s'.graph.Sound ∧ Standing related s' ∧ ∀ set ∈ s'.graph.branchSets,
      ∀ p ∈ pairs set.branches, Declined s'.questions p.1.node p.2.node := by
  induction limit generalizing s report with
  | zero =>
    cases hrun
    exact absurd hlimit (Nat.lt_irrefl _)
  | succ limit ih =>
    rw [rounds_succ] at hrun
    cases hround : EStateM.run (round (.deciding related guardOf) report) s with
    | error e s₁ =>
      rw [hround] at hrun
      cases hrun
    | ok r s₁ =>
      have hkeeps := round_keeps (.deciding related guardOf) report h
      have hs₁ := round_standing h hs hround
      obtain ⟨report₁, more⟩ := r
      rw [hround] at hrun hkeeps
      cases more with
      | true =>
        refine ih hkeeps.sound hs₁ hrun ?_
        rw [round_counts hround]
        omega
      | false =>
        cases hrun
        obtain ⟨found, hfound, hnothing, -⟩ := round_stops h hround
        have hgraph := ((discover_all _ s.graph.branchSets).ok hfound).1
        have hnd : ∀ set ∈ s.graph.branchSets, (set.branches.map (·.node)).Nodup := by
          intro set hset
          obtain ⟨cases, hq⟩ := Graph.qualified_of_mem hset
          exact hq.nodes_nodup
        refine ⟨hkeeps.sound, hs₁, ?_⟩
        rw [hgraph]
        exact (discover_all_decides hnd _ _ hfound).2 hnothing

/-- Whatever pairs a session has declined, the relation declines for the
configurations that the two nodes hold now. -/
def StandsBy (related : Config → Config → Bool) (s : Session Unit) : Prop :=
  ∀ q ∈ s.questions, ∀ a b, s.graph.nodes.get? q.first = some a →
    s.graph.nodes.get? q.second = some b → a.term = q.firstConfig.term →
    b.term = q.secondConfig.term → related q.firstConfig q.secondConfig = false →
    related a b = false

end Merging

open Merging

/-- Merging that stops before its limit has asked about every pair of branches that it
leaves, and the oracle has declined the pair: not always as the two are now, but with
their terms. Where the oracle stands by that, no pair is acceptable, and merging again
changes nothing. -/
theorem Reachable.merging_stops_on_declined {g : Graph} (h : Reachable g)
    (related : Config → Config → Bool) (guardOf : List Effect → Effect) (limit : Nat)
    {report : Report} {s' : Session Unit}
    (hrun : EStateM.run (Merging.run (.deciding related guardOf) limit)
      { graph := g, memory := () } = .ok report s')
    (hlimit : report.rounds < limit) :
    (∀ set ∈ s'.graph.branchSets, ∀ p ∈ pairs set.branches, ∃ q ∈ s'.questions,
      q.first = p.1.node ∧ q.second = p.2.node ∧ p.1.config.term = q.firstConfig.term ∧
      p.2.config.term = q.secondConfig.term ∧ related q.firstConfig q.secondConfig = false) ∧
    (StandsBy related s' →
      (∀ set ∈ s'.graph.branchSets, ∀ p ∈ pairs set.branches,
        related p.1.config p.2.config = false) ∧
      ∀ again, ∃ report' s'', EStateM.run (Merging.run (.deciding related guardOf) again)
        { graph := s'.graph, memory := () } = .ok report' s'' ∧
        s''.graph = s'.graph ∧ report'.groups = []) := by
  have hstart : Standing related { graph := g, memory := () } := fun q hq => by cases hq
  obtain ⟨hsound, hstanding, hdeclined⟩ :=
    rounds_stop h.sound hstart hrun (hlimit.trans_eq (Nat.zero_add limit).symm)
  have hasked : ∀ set ∈ s'.graph.branchSets, ∀ p ∈ pairs set.branches,
      s'.graph.nodes.get? p.1.node = some p.1.config ∧
      s'.graph.nodes.get? p.2.node = some p.2.config ∧ ∃ q ∈ s'.questions,
        q.first = p.1.node ∧ q.second = p.2.node ∧ p.1.config.term = q.firstConfig.term ∧
        p.2.config.term = q.secondConfig.term ∧ related q.firstConfig q.secondConfig = false := by
    intro set hset p hp
    obtain ⟨-, cases, hq⟩ := Graph.branchSet?_eq_some (Graph.branchSet?_of_mem hset)
    obtain ⟨h₁, h₂⟩ := mem_of_mem_pairs hp
    have hconfig₁ := (hq.branch _ h₁).config
    have hconfig₂ := (hq.branch _ h₂).config
    obtain ⟨q, hmem, hfirst, hsecond, hreply⟩ := hdeclined set hset p hp
    have hstands := hstanding q hmem
    refine ⟨hconfig₁, hconfig₂, q, hmem, hfirst, hsecond, ?_, ?_, ?_⟩
    · exact hstands.first.term _ (hfirst ▸ hconfig₁)
    · exact hstands.second.term _ (hsecond ▸ hconfig₂)
    · exact Except.ok.inj (hstands.reply.symm.trans hreply)
  refine ⟨fun set hset p hp => (hasked set hset p hp).2.2, fun hstandsBy => ?_⟩
  have hnone : ∀ set ∈ s'.graph.branchSets, ∀ p ∈ pairs set.branches,
      related p.1.config p.2.config = false := by
    intro set hset p hp
    obtain ⟨h₁, h₂, q, hmem, hfirst, hsecond, hterm₁, hterm₂, hno⟩ := hasked set hset p hp
    exact hstandsBy q hmem _ _ (hfirst ▸ h₁) (hsecond ▸ h₂) hterm₁ hterm₂ hno
  refine ⟨hnone, fun again => ?_⟩
  refine rounds_unchanged (s := { graph := s'.graph, memory := () })
    (Oracle.decides_deciding related guardOf) hsound rfl (fun set hset p hp haccepts => ?_) again {}
  have hyes := Except.ok.inj (Oracle.accepts_ofFunctions haccepts)
  rw [hnone set hset p hp] at hyes
  cases hyes

theorem merging_stops_on_declined_fork :
    let oracle := Oracle.deciding (fun a b => a.term == b.term) anyOf
    let s : Session Unit := { graph := Graph.empty.afterAll fork, memory := () }
    ∃ report s', EStateM.run (Merging.run oracle 64) s = .ok report s' ∧ report.rounds = 1 ∧
      ∃ report' s'', EStateM.run (Merging.run oracle 64) { graph := s'.graph, memory := () } =
        .ok report' s'' ∧ s''.graph = s'.graph ∧ report'.groups = [] := by
  intro oracle s
  obtain ⟨report, s', hrun, hrounds⟩ := exists_ok_of_endsWith
    (p := fun report : Report => report.rounds == 1) (r := EStateM.run (Merging.run oracle 64) s)
    (by decide +kernel)
  have hrounds : report.rounds = 1 := beq_iff_eq.mp hrounds
  obtain ⟨-, hstandsBy⟩ := reachable_fork.merging_stops_on_declined
    (fun a b => a.term == b.term) anyOf 64 hrun (by omega)
  refine ⟨report, s', hrun, hrounds, (hstandsBy fun q _ a b _ _ ha hb hno => ?_).2 64⟩
  change (a.term == b.term) = false
  rw [ha, hb]
  exact hno

/-- Calls that make a split below a merged path. Its branches begin their path
conditions with "A" and "B", and with the "P" of the topmost node once the branches of
the topmost split have been merged. -/
def cascade : List Call :=
  .addNode { term := .var "R", constraints := [.var "P"] } ::
    List.replicate 7 (.addNode { term := .var "X" }) ++
    [.createEdge 2 4 [.guard .top], .createEdge 3 4 [.guard .top], .createEdge 5 7 [.guard .top],
      .createEdge 6 8 [.guard .top],
      .createSplit 4 { guards := .ofList [(5, .assume [.var "A"]), (6, .assume [.var "B"])] },
      .createSplit 1 { guards := .ofList [(2, .top), (3, .top)] }]

theorem reachable_cascade : Reachable (Graph.empty.afterAll cascade) := ⟨.empty, cascade, .empty, rfl⟩

/-- Merging by the first formula of each path condition stops with a pair that is
acceptable, and merging again merges it. -/
theorem merging_stops_on_acceptable :
    let oracle := Oracle.deciding (fun a b => a.constraints.head? == b.constraints.head?) anyOf
    Reachable (Graph.empty.afterAll cascade) ∧ ∃ report s', EStateM.run (Merging.run oracle 64)
        { graph := Graph.empty.afterAll cascade, memory := () } = .ok report s' ∧
      report.rounds < 64 ∧
      (∃ set ∈ s'.graph.branchSets, ∃ p ∈ pairs set.branches,
        (p.1.config.constraints.head? == p.2.config.constraints.head?) = true) ∧
      ∃ report' s'', EStateM.run (Merging.run oracle 64) { graph := s'.graph, memory := () } =
        .ok report' s'' ∧ report'.groups ≠ [] := by
  intro oracle
  let s : Session Unit := { graph := Graph.empty.afterAll cascade, memory := () }
  let left : Graph := (stateOf (EStateM.run (Merging.run oracle 64) s)).graph
  obtain ⟨report, s', hrun, hrounds⟩ := exists_ok_of_endsWith
    (p := fun report : Report => decide (report.rounds < 64))
    (r := EStateM.run (Merging.run oracle 64) s) (by decide +kernel)
  have hleft : left = s'.graph := congrArg (fun r => (stateOf r).graph) hrun
  have hpair : (left.branchSets.any fun set => (pairs set.branches).any fun p =>
      p.1.config.constraints.head? == p.2.config.constraints.head?) = true := by decide +kernel
  obtain ⟨report', s'', hagain, hgroups⟩ := exists_ok_of_endsWith
    (p := fun report : Report => !report.groups.isEmpty)
    (r := EStateM.run (Merging.run oracle 64) { graph := left, memory := () }) (by decide +kernel)
  rw [hleft] at hpair hagain
  obtain ⟨set, hset, hp⟩ := List.any_eq_true.mp hpair
  obtain ⟨p, hp, hhead⟩ := List.any_eq_true.mp hp
  refine ⟨reachable_cascade, report, s', hrun, of_decide_eq_true hrounds,
    ⟨set, hset, p, hp, hhead⟩, report', s'', hagain, ?_⟩
  simpa using hgroups

end StateGraph
