-- What the plans of a round build, as it stands when the round is over. The end of a merged
-- path was not there when the round began, and the sources, branches and targets of all its
-- plans were. So no later plan touches the end of a path, nor does bringing path conditions
-- up to date.
import StateGraph.Proofs.AcceptedMerges

namespace StateGraph

open Relation (ReflTransGen)

namespace Graph

variable {g₀ g g' : Graph} {set other : BranchSet} {cases : Cases} {config : Config}
  {path : MergedPath} {paths : List MergedPath} {source : NodeId}

/-! ## Paths -/

/-- A graph on its way from `g₀` through a round: what was there and still is holds what it
held. -/
structure Within (g₀ g : Graph) : Prop where
  next_le : g₀.next ≤ g.next
  node : ∀ id c, id < g₀.next → g.nodes.get? id = some c → g₀.nodes.get? id = some c

theorem Within.refl (g : Graph) : Within g g := ⟨Nat.le_refl _, fun _ _ _ => id⟩

theorem Within.reworked (hw : Within g₀ g) (h : Reworked g g' set paths) : Within g₀ g' where
  next_le := Nat.le_trans hw.next_le h.grows.next_le
  node := by
    intro id c hlt hc
    have hin := Table.mem_of_get? hc
    have hold : id ∈ g.nodes := by
      refine (h.grows.fresh id hin).resolve_right fun hle => ?_
      exact Nat.lt_irrefl _ (Nat.lt_of_lt_of_le hlt (Nat.le_trans hw.next_le hle))
    exact hw.node id c hlt ((h.node id hold ((h.mem_nodes hold).mp hin)).symm.trans hc)

/-- A path that has come since `g₀`. Its edge runs its branches, and its end holds the
configuration of the path and splits to where they led. No split branches to the end. -/
structure Stands (g₀ g : Graph) (set : BranchSet) (config : Config) (path : MergedPath) :
    Prop where
  new : g₀.next ≤ path.group.merged
  start : path.group.anchor ∈ g₀.splits ∨ g₀.next ≤ path.group.anchor
  link : g.edges.get? path.link = some (set.chain path.branches)
  node : g.nodes.get? path.group.merged = some config
  split : g.splits.get? path.group.merged =
    some { shared := set.shared, guards := BranchSet.targets path.branches }
  untargeted : ∀ a, ¬ BranchesTo g.splits a path.group.merged

theorem Reworked.merged_untargeted (h : Reworked g g' set paths) (hpath : path ∈ paths)
    (a : NodeId) : ¬ BranchesTo g'.splits a path.group.merged := by
  intro ha
  rcases (h.branchesTo a _).mp ha with ⟨-, -, ha⟩ | ⟨-, -, q, hq, he⟩ | ⟨q, hq, -, br, hbr, he⟩
  · exact h.merged_not_mem hpath (h.sound.split_target _ _ ha)
  · exact h.anchor_ne_merged hq hpath he
  · exact h.merged_not_mem hpath (he ▸ h.target_mem hq hbr)

theorem Built.stands (hb : g'.Built set config path) (hw : Within g₀ g)
    (hsource : set.source ∈ g₀.splits) (h : Reworked g g' set paths) (hpath : path ∈ paths) :
    Stands g₀ g' set config path where
  new := Nat.le_trans hw.next_le (h.merged_new path hpath)
  start := by
    rcases h.anchor path hpath with he | hle
    · exact Or.inl (he.symm ▸ hsource)
    · exact Or.inr (Nat.le_trans hw.next_le hle)
  link := (h.edge _ _).mpr (Or.inr ⟨path, hpath, rfl, rfl⟩)
  node := hb.merged
  split := hb.split
  untargeted := h.merged_untargeted hpath

/-! ## What else a round does -/

/-- What a plan for a split that qualified in `g₀` takes in was there then, and had no split
of its own. -/
theorem Reworked.absorbed_before (h : Reworked g g' other paths) (h₀ : Sound g₀)
    (hq : Qualified g₀ other cases) {id : NodeId} (hid : Absorbed paths id) :
    id ∈ g₀.nodes ∧ id ∉ g₀.splits := by
  obtain ⟨p, hp, br, hbr, rfl⟩ := h.exists_branch hid
  have hbranch := (h.members p hp).mem br hbr
  exact ⟨h₀.split_target _ _ (hq.branchesTo hbranch), (hq.branch br hbranch).no_split⟩

/-- A plan for a split that qualified in `g₀` leaves another path as it is. -/
theorem Stands.reworked (hs : Stands g₀ g set config path) (h₀ : Sound g₀)
    (hq : Qualified g₀ other cases) (h : Reworked g g' other paths) :
    Stands g₀ g' set config path := by
  have hin : path.group.merged ∈ g.nodes := Table.mem_of_get? hs.node
  have hsource : path.group.merged ≠ other.source := fun he =>
    h₀.not_mem_of_le hs.new (he ▸ h₀.split_source _ hq.source_mem_splits)
  have hend : ¬ Absorbed paths path.group.merged := fun habs =>
    h₀.not_mem_of_le hs.new (h.absorbed_before h₀ hq habs).1
  have hstart : ¬ Absorbed paths path.group.anchor := fun habs =>
    hs.start.elim (h.absorbed_before h₀ hq habs).2 fun hnew =>
      h₀.not_mem_of_le hnew (h.absorbed_before h₀ hq habs).1
  refine ⟨hs.new, hs.start, (h.edge _ _).mpr (Or.inl ⟨hstart, hend, hs.link⟩),
    (h.node _ hin hend).trans hs.node, (h.split_kept hin hsource hend).trans hs.split,
    fun a ha => ?_⟩
  rcases (h.branchesTo a _).mp ha with ⟨-, -, ha⟩ | ⟨-, hne, q, hq', he⟩ |
    ⟨q, hq', -, br, hbr, he⟩
  · exact hs.untargeted a ha
  · exact hsource (he ▸ h.anchor_eq_source hq' (he ▸ hin))
  · exact h₀.not_mem_of_le hs.new (he ▸ hq.target_mem_nodes h₀ ((h.members q hq').mem br hbr))

theorem Stands.settles (hs : Stands g₀ g set config path) (h : Settles g g') :
    Stands g₀ g' set config path where
  new := hs.new
  start := hs.start
  link := by rw [h.edges_eq, hs.link]
  node := (h.untargeted _ hs.untargeted).trans hs.node
  split := by rw [h.splits_eq, hs.split]
  untargeted := by
    rw [h.splits_eq]
    exact hs.untargeted

/-- What a round that began with `g₀` does besides merging the branches of one source. -/
inductive Aside (g₀ : Graph) (source : NodeId) (g g' : Graph) : Prop
  | plan {set : BranchSet} {cases : Cases} {paths : List MergedPath}
      (qualified : Qualified g₀ set cases) (other : set.source ≠ source)
      (reworked : Reworked g g' set paths) : Aside g₀ source g g'
  | settle (settles : Settles g g') : Aside g₀ source g g'

theorem Stands.aside (hs : Stands g₀ g set config path) (h₀ : Sound g₀)
    (h : ReflTransGen (Aside g₀ source) g g') : Stands g₀ g' set config path := by
  induction h with
  | refl => exact hs
  | tail _ hstep ih =>
    cases hstep with
    | plan hq _ hreworked => exact ih.reworked h₀ hq hreworked
    | settle hsettles => exact ih.settles hsettles

/-- The split of the source is left as it is, also if it has gone. -/
theorem split_aside (h₀ : Sound g₀) (hs : source ∈ g₀.splits) (hg : source ∈ g.nodes)
    (h : ReflTransGen (Aside g₀ source) g g') : g'.splits.get? source = g.splits.get? source := by
  suffices hboth : source ∈ g'.nodes ∧ g'.splits.get? source = g.splits.get? source from hboth.2
  induction h with
  | refl => exact ⟨hg, rfl⟩
  | tail _ hstep ih =>
    obtain ⟨hin, hsplit⟩ := ih
    cases hstep with
    | settle hsettles => exact ⟨(hsettles.mem_iff _).mpr hin, hsettles.splits_eq ▸ hsplit⟩
    | @plan set cases paths hq hne hreworked =>
      have hkept : ¬ Absorbed paths source := fun habs => (hreworked.absorbed_before h₀ hq habs).2 hs
      exact ⟨(hreworked.mem_nodes hin).mpr hkept,
        (hreworked.split_kept hin hne.symm hkept).trans hsplit⟩

end Graph

namespace Merging

variable {σ : Type} {oracle : Oracle σ} {g₀ g g₁ g₂ : Graph} {p : Plan} {s s' : Session σ}
  {groups : List Group} {config c : Config} {path : MergedPath} {paths : List MergedPath}

open StateGraph.Graph (Within Stands Aside)

/-! ## Plans of one round -/

/-- A plan that a round has carried out. The round began with `g₀` and has come to `g`; the
graph was `g₁` right before the plan and `g₂` right after it. -/
structure Served (oracle : Oracle σ) (g₀ g : Graph) (p : Plan) (groups : List Group)
    (g₁ g₂ : Graph) (paths : List MergedPath) (config : Config) : Prop where
  set : p.set ∈ g₀.branchSets
  fits : p.Fits
  within : Within g₀ g₁
  constructs : Constructs oracle p groups g₁ g₂ paths config
  since : ReflTransGen (g₀.Aside p.set.source) g₂ g

theorem composes_aside (g₀ : Graph) (source : NodeId) :
    Composes (ReflTransGen (g₀.Aside source)) :=
  ⟨fun _ => .refl, fun _ h => .single (.settle h), ReflTransGen.trans⟩

/-- Plans for other splits that qualified when the round began leave a split aside. -/
theorem carryOut_all_aside {plans : List Plan} {all : List (List Group)} (h : s.graph.Sound)
    (hplans : ∀ q ∈ plans, q.set ∈ g₀.branchSets ∧ q.Fits ∧ q.cliques ≠ [])
    {source : NodeId} (hother : ∀ q ∈ plans, q.set.source ≠ source)
    (hrun : EStateM.run (plans.mapM (carryOutIfCurrent oracle)) s = .ok all s') :
    ReflTransGen (g₀.Aside source) s.graph s'.graph := by
  have hfits : ∀ q ∈ plans, q.Fits ∧ q.cliques ≠ [] := fun q hq => (hplans q hq).2
  have hturns : ∀ q groups s₁ s₂, Turn oracle q groups s₁ s₂ s plans →
      ReflTransGen (g₀.Aside source) s₁.graph s₂.graph := by
    intro q groups s₁ s₂ hturn
    obtain ⟨hq, -, paths, hreworked, -⟩ := hturn.carried h hfits
    obtain ⟨cases, hqualified⟩ := Graph.qualified_of_mem (hplans q hq).1
    exact .single (.plan hqualified (hother q hq) hreworked)
  have hrelated := carryOut_all_related (composes_aside g₀ source) h hfits hturns
  rw [hrun] at hrelated
  exact hrelated

theorem Constructs.splitSource (h : Constructs oracle p groups g₁ g₂ paths config) {r : Group}
    (hr : r ∈ groups) : r.splitSource = p.set.source := by
  rw [h.groups_eq] at hr
  obtain ⟨path, hpath, rfl⟩ := List.mem_map.mp hr
  exact h.reworked.source path hpath

/-- Once all plans of a round have had their turn, every group is that of a plan carried
out, together with all others of its split. -/
theorem carryOut_all_served {plans : List Plan} {all : List (List Group)} (h : s.graph.Sound)
    (hw : Within g₀ s.graph)
    (hplans : ∀ p ∈ plans, p.set ∈ g₀.branchSets ∧ p.Fits ∧ p.cliques ≠ [])
    (hsources : plans.Pairwise fun p q => p.set.source ≠ q.set.source)
    (hrun : EStateM.run (plans.mapM (carryOutIfCurrent oracle)) s = .ok all s') :
    ∀ r ∈ all.flatten, ∃ p ∈ plans, ∃ groups g₁ g₂ paths config,
      Served oracle g₀ s'.graph p groups g₁ g₂ paths config ∧ r ∈ groups ∧
      all.flatten.filter (·.splitSource == p.set.source) = groups := by
  induction plans generalizing s all with
  | nil =>
    cases hrun
    simp
  | cons q plans ih =>
    obtain ⟨groups, s₁, more, hq, hrest, rfl⟩ := carryOut_cons_ok hrun
    obtain ⟨hset, hfits, hne⟩ := hplans q List.mem_cons_self
    obtain ⟨hother, hsources⟩ := List.pairwise_cons.mp hsources
    have hkeeps := carryOutIfCurrent_keeps oracle h hfits hne
    rw [hq] at hkeeps
    have hothers := fun p hp => hplans p (List.mem_cons_of_mem _ hp)
    rcases carryOutIfCurrent_ok hq with ⟨-, rfl, rfl⟩ | ⟨hcurrent, hcarried⟩
    · intro r hr
      obtain ⟨p, hp, hserved⟩ := ih h hw hothers hsources hrest r hr
      exact ⟨p, List.mem_cons_of_mem _ hp, hserved⟩
    · obtain ⟨paths, config, hmade⟩ := constructs_of_run h hfits hne hcurrent hcarried
      have hmore := ih hkeeps.sound (hw.reworked hmade.reworked) hothers hsources hrest
      have hfirst : ∀ r ∈ groups, r.splitSource = q.set.source := fun r => hmade.splitSource
      intro r hr
      rcases List.mem_append.mp hr with hr | hr
      · refine ⟨q, List.mem_cons_self, groups, _, _, paths, config, ⟨hset, hfits, hw, hmade, ?_⟩,
          hr, ?_⟩
        · exact carryOut_all_aside hkeeps.sound hothers (fun p hp => (hother p hp).symm) hrest
        · have hnone : more.flatten.filter (·.splitSource == q.set.source) = [] := by
            refine List.filter_eq_nil_iff.mpr fun r hr he => ?_
            obtain ⟨p, hp, _, _, _, _, _, hserved, hr, -⟩ := hmore r hr
            rw [hserved.constructs.splitSource hr] at he
            exact hother p hp (beq_iff_eq.mp he).symm
          rw [List.flatten_cons, List.filter_append, hnone, List.append_nil]
          exact List.filter_eq_self.mpr fun r hr => beq_iff_eq.mpr (hfirst r hr)
      · obtain ⟨p, hp, groups', g₁, g₂, paths', config', hserved, hr, hall⟩ := hmore r hr
        refine ⟨p, List.mem_cons_of_mem _ hp, groups', g₁, g₂, paths', config', hserved, hr, ?_⟩
        have hnone : groups.filter (·.splitSource == p.set.source) = [] := by
          refine List.filter_eq_nil_iff.mpr fun r hr he => ?_
          rw [hfirst r hr] at he
          exact hother p hp (beq_iff_eq.mp he)
        rw [List.flatten_cons, List.filter_append, hnone, hall, List.nil_append]

/-! ## One round -/

/-- Every group that a round reports is that of a plan that it has carried out, together with
all others of its split. -/
theorem round_served {report report' : Report} {more : Bool} (h : s.graph.Sound)
    (hrun : EStateM.run (round oracle report) s = .ok (report', more) s') :
    ∃ gained, report'.groups = report.groups ++ gained ∧
      ∀ r ∈ gained, ∃ p groups g₁ g₂ paths config,
        Served oracle s.graph s'.graph p groups g₁ g₂ paths config ∧ r ∈ groups ∧
        gained.filter (·.splitSource == p.set.source) = groups := by
  have hends := round_ends oracle report s
  rw [hrun] at hends
  cases hends with
  | idle => exact ⟨[], (List.append_nil _).symm, by simp⟩
  | @done found s₁ s₂ s₃ groups n hfound hcarried hsettled =>
    refine ⟨groups.flatten, rfl, fun r hr => ?_⟩
    obtain ⟨hgraph, hplans⟩ := (discover_all oracle s.graph.branchSets).ok hfound
    have hsources := plansOf_sources_nodup ((discover_each oracle s.graph.branchSets).ok hfound).2.1
    have hkeeps := carryOut_all oracle (hgraph ▸ h) fun p hp => (hplans p hp).2
    rw [hcarried] at hkeeps
    obtain ⟨p, -, groups, g₁, g₂, paths, config, hserved, hr, hall⟩ := carryOut_all_served
      (hgraph ▸ h) (hgraph ▸ .refl s.graph) hplans hsources hcarried r hr
    obtain ⟨g', hg', rfl⟩ := propagate_ok hkeeps.sound hsettled
    exact ⟨p, groups, g₁, g₂, paths, config,
      { hserved with since := hserved.since.tail (.settle hg') }, hr, hall⟩

/-- A path of a plan for a split of `g₀`: the clique it takes in, what the source of the
split held and what the path holds, and the path as it stands in `g`. -/
structure Made (oracle : Oracle σ) (g₀ g : Graph) (p : Plan) (path : MergedPath)
    (config c : Config) : Prop where
  clique : path.group.members ∈ p.cliques
  members : MembersOf p.set path.group.members path.branches
  splitSource : path.group.splitSource = p.set.source
  targets : path.group.targets = (BranchSet.targets path.branches).keys
  source : g₀.nodes.get? p.set.source = some config
  starts : StartsWith oracle g₀ p config path c
  stands : g₀.Stands g p.set c path

theorem StartsWith.of_le (h : StartsWith oracle g p config path c) (hle : g₀.next ≤ g.next) :
    StartsWith oracle g₀ p config path c := by
  cases h with
  | source hwhole hanchor => exact .source hwhole hanchor
  | fresh hpart hanchor hgiven => exact .fresh hpart (Nat.le_trans hle hanchor) hgiven

/-- The paths of a plan stand when the round is over. -/
theorem Served.made (h : Served oracle g₀ g p groups g₁ g₂ paths config) (h₀ : g₀.Sound)
    (hpath : path ∈ paths) : ∃ c, Made oracle g₀ g p path config c := by
  have hmade := h.constructs
  have hreworked := hmade.reworked
  obtain ⟨cases, hq⟩ := Graph.qualified_of_mem h.set
  obtain ⟨c, hstarts, hbuilt⟩ := hmade.built path hpath
  refine ⟨c, {
    clique := hmade.cliques ▸ List.mem_map_of_mem hpath
    members := hreworked.members path hpath
    splitSource := hreworked.source path hpath
    targets := hbuilt.targets
    source := h.within.node _ _ ?_ hmade.source
    starts := hstarts.of_le h.within.next_le
    stands := ?_ }⟩
  · exact (h₀.in_range _ (h₀.split_source _ hq.source_mem_splits)).2
  · exact (hbuilt.stands h.within hq.source_mem_splits hreworked hpath).aside h₀ h.since

theorem Served.exists_path (h : Served oracle g₀ g p groups g₁ g₂ paths config) {r : Group}
    (hr : r ∈ groups) : ∃ path ∈ paths, path.group = r :=
  List.mem_map.mp (h.constructs.groups_eq ▸ hr)

/-- A session of one round is that round. -/
theorem run_one {report : Report} (hrun : EStateM.run (Merging.run oracle 1) s = .ok report s') :
    ∃ more, EStateM.run (round oracle {}) s = .ok (report, more) s' := by
  unfold Merging.run at hrun
  rw [rounds_succ] at hrun
  cases hround : EStateM.run (round oracle {}) s with
  | error e s₁ =>
    rw [hround] at hrun
    cases hrun
  | ok r s₁ =>
    obtain ⟨report₁, more⟩ := r
    rw [hround] at hrun
    cases more <;> cases hrun <;> exact ⟨_, rfl⟩

theorem run_one_served {report : Report} (h : s.graph.Sound)
    (hrun : EStateM.run (Merging.run oracle 1) s = .ok report s') :
    ∀ r ∈ report.groups, ∃ p groups g₁ g₂ paths config,
      Served oracle s.graph s'.graph p groups g₁ g₂ paths config ∧ r ∈ groups ∧
      report.groups.filter (·.splitSource == p.set.source) = groups := by
  obtain ⟨more, hround⟩ := run_one hrun
  obtain ⟨gained, hgroups, hserved⟩ := round_served h hround
  obtain rfl : report.groups = gained := hgroups
  exact hserved

end Merging

end StateGraph
