-- Plans carried out. A plan that fits its split fails only where the oracle
-- does, and then nothing has been touched.
import StateGraph.Proofs.Asking

namespace StateGraph

/-- The oracle has given a guard for some guards, from some memory. -/
def Oracle.Gives {σ : Type} (oracle : Oracle σ) (guards : List Effect) (guard : Effect) : Prop :=
  ∃ m m', (oracle.mergeGuards guards).run m = .ok guard m'

namespace Merging

variable {σ α : Type}

/-- The oracle fails with an error on the guards of a clique. -/
def GuardFails (oracle : Oracle σ) (set : BranchSet) (members : List NodeId) (e : Error) : Prop :=
  ∃ bs : List Branch, bs.map (·.node) = members ∧ (∀ b ∈ bs, b ∈ set.branches) ∧
    ∃ m m', (oracle.mergeGuards (bs.map set.fullGuard)).run m = .error e m'

/-- The graph that follows is sound, and errors have `Q`. -/
structure Keeps (g : Graph) (Q : Error → Session σ → Prop)
    (r : EStateM.Result Error (Session σ) α) : Prop where
  sound : (stateOf r).graph.Sound
  grows : g.Grows (stateOf r).graph
  error : ∀ e s', r = .error e s' → Q e s'

variable {g : Graph} {s : Session σ} {Q Q' : Error → Session σ → Prop}

theorem keeps_ok {a : α} (h : s.graph.Sound) (hg : g.Grows s.graph) :
    Keeps g Q (.ok a s : EStateM.Result Error (Session σ) α) :=
  ⟨h, hg, fun _ _ he => by cases he⟩

theorem keeps_error {e : Error} (h : s.graph.Sound) (hg : g.Grows s.graph) (he : Q e s) :
    Keeps g Q (.error e s : EStateM.Result Error (Session σ) α) :=
  ⟨h, hg, fun _ _ heq => by cases heq; exact he⟩

theorem Keeps.imp {r : EStateM.Result Error (Session σ) α} (h : Keeps g Q r)
    (hQ : ∀ e s', Q e s' → Q' e s') : Keeps g Q' r :=
  ⟨h.sound, h.grows, fun e s' he => hQ e s' (h.error e s' he)⟩

theorem Keeps.bind {β : Type} {x : Merging σ α} {f : α → Merging σ β}
    (hx : Keeps g Q (EStateM.run x s))
    (hf : ∀ a s', EStateM.run x s = .ok a s' → s'.graph.Sound →
      Keeps s'.graph Q (EStateM.run (f a) s')) : Keeps g Q (EStateM.run (x >>= f) s) := by
  rw [EStateM.run_bind]
  cases hrun : EStateM.run x s with
  | error e s' =>
    rw [hrun] at hx
    exact keeps_error hx.sound hx.grows (hx.error e s' rfl)
  | ok a s' =>
    rw [hrun] at hx
    have hrest := hf a s' hrun hx.sound
    exact ⟨hrest.sound, hx.grows.trans hrest.grows, hrest.error⟩

/-- What leaves the graph alone keeps it sound. -/
theorem Quiet.keeps {P : α → Prop} {R : Error → Prop} {x : Merging σ α} (hx : Quiet P R x)
    (h : s.graph.Sound) :
    Keeps s.graph (fun e s' => s'.graph = s.graph ∧ R e) (EStateM.run x s) := by
  have hs := hx s
  cases hrun : EStateM.run x s with
  | error e s' =>
    rw [hrun] at hs
    exact keeps_error (hs.1.symm ▸ h) (hs.1.symm ▸ .refl _) hs
  | ok a s' =>
    rw [hrun] at hs
    exact keeps_ok (hs.1.symm ▸ h) (hs.1.symm ▸ .refl _)

theorem Quiet.ok {P : α → Prop} {R : Error → Prop} {x : Merging σ α} (hx : Quiet P R x) {a : α}
    {s' : Session σ} (hrun : EStateM.run x s = .ok a s') : s'.graph = s.graph ∧ P a := by
  have hs := hx s
  rw [hrun] at hs
  exact hs

/-! ## Before the graph is touched -/

/-- A clique whose branches have been found, with a guard of the oracle for them. -/
structure Prepared (oracle : Oracle σ) (set : BranchSet) (part : Part) : Prop where
  members : MembersOf set part.members part.branches
  guard : oracle.Gives (part.branches.map set.fullGuard) part.guard

theorem quiet_prepare (oracle : Oracle σ) {set : BranchSet} {members : List NodeId}
    (hnd : (set.branches.map (·.node)).Nodup) (hne : members ≠ [])
    (hmem : ∀ m ∈ members, m ∈ set.branches.map (·.node)) :
    Quiet (fun part => part.members = members ∧ Prepared oracle set part)
      (GuardFails oracle set members) (prepare oracle set members) := by
  obtain ⟨bs, hbs, hnodes, hsub⟩ := BranchSet.branches_ok hnd hmem
  have hbsne : bs ≠ [] := fun he => hne (by rw [← hnodes, he]; rfl)
  refine (quiet_ofExcept (P := fun x => x = bs) hbs rfl).bind fun x hx => ?_
  subst hx
  refine ((quiet_consult _).imp (fun _ => id) ?_).bind fun guard hguard => ?_
  · exact fun e he => ⟨_, hnodes, hsub, he⟩
  · exact .pure ⟨rfl, ⟨hnodes, hsub, hbsne⟩, hguard⟩

/-- A clique that takes as many branches as there are takes all. -/
theorem perm_of_length_eq {set : BranchSet} {members : List NodeId} (hnd : members.Nodup)
    (hmem : ∀ m ∈ members, m ∈ set.branches.map (·.node))
    (hlen : members.length = set.branches.length) : members.Perm (set.branches.map (·.node)) :=
  (hnd.subperm hmem).perm_of_length_le (by rw [List.length_map, hlen])

/-! ## Plans -/

theorem coversSplit_iff {p : Plan} : p.coversSplit = true ↔
    ∃ members, p.cliques = [members] ∧ members.length = p.set.branches.length := by
  unfold Plan.coversSplit
  split
  · rename_i clique hcliques
    simp [hcliques]
  · rename_i hno
    simp only [Bool.false_eq_true, false_iff]
    rintro ⟨members, hmembers, -⟩
    exact hno members hmembers

/-- A plan with a clique of all branches has no other clique. -/
theorem coversSplit_of_all {p : Plan} (hp : p.Fits) {members : List NodeId}
    (hmember : members ∈ p.cliques) (hall : members = p.set.branches.map (·.node)) :
    p.coversSplit = true := by
  have honly : ∀ c ∈ p.cliques, c = members := fun c hc =>
    hp.maximal c hc members hmember fun m hm => hall ▸ hp.mem c hc m hm
  have hperm : p.cliques.Perm [members] :=
    (List.perm_ext_iff_of_nodup hp.nodup (List.nodup_singleton _)).mpr fun c =>
      ⟨fun hc => List.mem_singleton.mpr (honly c hc), fun hc => List.mem_singleton.mp hc ▸ hmember⟩
  refine coversSplit_iff.mpr ⟨members, List.perm_singleton.mp hperm, ?_⟩
  rw [hall, List.length_map]

/-- A clique is all branches of its split exactly when the plan covers the split. -/
theorem coversSplit_iff_targets {g : Graph} {p : Plan} {cases : Cases}
    (hq : Qualified g p.set cases) (hp : p.Fits) {members : List NodeId}
    (hmember : members ∈ p.cliques) : p.coversSplit = true ↔ members = cases.targets := by
  have htargets : p.set.branches.map (·.node) = cases.targets := hq.nodes_eq
  refine ⟨fun hall => ?_, fun he => coversSplit_of_all hp hmember (he.trans htargets.symm)⟩
  obtain ⟨only, hcliques, hlen⟩ := coversSplit_iff.mp hall
  rw [hcliques, List.mem_singleton] at hmember
  subst hmember
  have hin : members ∈ p.cliques := by rw [hcliques]; simp
  have hascending := hp.ascending members hin
  have hperm := perm_of_length_eq (hascending.imp Nat.ne_of_lt) (hp.mem members hin) hlen
  rw [← htargets]
  exact List.Perm.eq_of_pairwise (fun a b _ _ hab hba => absurd hba (Nat.lt_asymm hab)) hascending
    (List.pairwise_map.mpr hq.ascending) hperm

/-- A plan has been carried out: its split is reworked into one path for each
clique, and there is a group for each path. -/
def Carried (p : Plan) (groups : List Group) (g g' : Graph) : Prop :=
  ∃ paths, g.Reworked g' p.set paths ∧ groups = paths.map (·.group) ∧
    paths.map (·.group.members) = p.cliques

/-- How a plan ends: carried out, or with an error of the oracle on a guard and
nothing touched. -/
def PlanEnds (oracle : Oracle σ) (p : Plan) (s : Session σ) :
    EStateM.Result Error (Session σ) (List Group) → Prop
  | .ok groups s' => Carried p groups s.graph s'.graph
  | .error e s' => s'.graph = s.graph ∧ ∃ c ∈ p.cliques, GuardFails oracle p.set c e

/-- Where a path of a plan starts, and the configuration it starts with. One that covers
the split starts at its source with what that holds. Any other starts at a fresh anchor,
which assumes a guard of the oracle on top. -/
inductive StartsWith (oracle : Oracle σ) (g : Graph) (p : Plan) (config : Config)
    (path : MergedPath) : Config → Prop
  | source (whole : p.coversSplit = true) (anchor : path.group.anchor = p.set.source) :
      StartsWith oracle g p config path config
  | fresh {guard : Effect} (part : p.coversSplit = false) (anchor : g.next ≤ path.group.anchor)
      (given : oracle.Gives (path.branches.map p.set.fullGuard) guard) :
      StartsWith oracle g p config path
        (config.addConstraints (p.set.shared.constraints ++ guard.constraints))

/-- The entry by which a split branches to the start of a path: a guard of the oracle, which
the path assumes on top of what the source held. -/
structure Guarded (oracle : Oracle σ) (g : Graph) (set : BranchSet) (config : Config)
    (path : MergedPath) (e : NodeId × Effect) : Prop where
  anchor : e.1 = path.group.anchor
  given : oracle.Gives (path.branches.map set.fullGuard) e.2
  built : g.Built set (config.addConstraints (set.shared.constraints ++ e.2.constraints)) path

/-- A split once its paths stand behind anchors: the branches that no path took in, then the
anchors. -/
structure Resplit (oracle : Oracle σ) (g : Graph) (set : BranchSet) (config : Config)
    (paths : List MergedPath) (cases : Cases) (anchors : List (NodeId × Effect)) : Prop where
  split : g.splits.get? set.source = some cases
  shared : cases.shared = set.shared
  entries : cases.guards.toList = ((set.branches.map fun b => (b.node, b.guard)).filter fun e =>
    paths.all fun path => !path.group.members.contains e.1) ++ anchors
  guarded : List.Forall₂ (Guarded oracle g set config) paths anchors

/-- A plan has been carried out, with what its paths hold from end to end. -/
structure Constructs (oracle : Oracle σ) (p : Plan) (groups : List Group) (g g' : Graph)
    (paths : List MergedPath) (config : Config) : Prop where
  reworked : g.Reworked g' p.set paths
  groups_eq : groups = paths.map (·.group)
  cliques : paths.map (·.group.members) = p.cliques
  source : g.nodes.get? p.set.source = some config
  built : ∀ path ∈ paths, ∃ c, StartsWith oracle g p config path c ∧ g'.Built p.set c path
  resplit : p.coversSplit = false →
    ∃ cases anchors, Resplit oracle g' p.set config paths cases anchors

variable {p : Plan} {cases : Cases}

theorem Constructs.carried {oracle : Oracle σ} {groups : List Group} {g g' : Graph}
    {paths : List MergedPath} {config : Config} (h : Constructs oracle p groups g g' paths config) :
    Carried p groups g g' := ⟨paths, h.reworked, h.groups_eq, h.cliques⟩

/-- A plan that covers its split consults no one. -/
theorem carryOut_whole_eq (oracle : Oracle σ) (h : s.graph.Sound)
    (hq : Qualified s.graph p.set cases) (hp : p.Fits) (hall : p.coversSplit = true) :
    ∃ members bs config, p.cliques = [members] ∧ MembersOf p.set members bs ∧
      (∀ b ∈ p.set.branches, b.node ∈ members) ∧
      s.graph.nodes.get? p.set.source = some config ∧
      EStateM.run (carryOut oracle p) s = .ok [p.set.wholeGroup s.graph members bs]
        { s with graph := (s.graph.withoutAll members).withPath p.set p.set.source config bs } := by
  obtain ⟨members, hcliques, hlen⟩ := coversSplit_iff.mp hall
  have hmember : members ∈ p.cliques := by rw [hcliques]; simp
  have hnd : members.Nodup := (hp.ascending members hmember).imp Nat.ne_of_lt
  obtain ⟨bs, hbs, hnodes, hsub⟩ := BranchSet.branches_ok hq.nodes_nodup (hp.mem members hmember)
  have hbsne : bs ≠ [] := by
    rintro rfl
    have := hp.large members hmember
    rw [← hnodes] at this
    simp at this
  obtain ⟨config, hsource, hconfig⟩ := Update.config_eq (h.split_source _ hq.source_mem_splits)
  have hfit : MembersOf p.set members bs := ⟨hnodes, hsub, hbsne⟩
  have hbranch : ∀ b ∈ p.set.branches, b.node ∈ members := fun b hb =>
    (perm_of_length_eq hnd (hp.mem members hmember) hlen).mem_iff.mpr (List.mem_map_of_mem hb)
  have hrun := BranchSet.mergeWhole_run h hq hfit hnd hbranch config
  refine ⟨members, bs, config, hcliques, hfit, hbranch, hsource, ?_⟩
  unfold carryOut
  rw [hcliques, hall]
  simp only [EStateM.run_bind, EStateM.run_get, update_run, Update.ofExcept_run, hconfig, hbs,
    hrun]
  rfl

theorem carryOut_whole_constructs (oracle : Oracle σ) (h : s.graph.Sound)
    (hq : Qualified s.graph p.set cases) (hp : p.Fits) (hall : p.coversSplit = true) :
    ∃ groups s' paths config, EStateM.run (carryOut oracle p) s = .ok groups s' ∧
      Constructs oracle p groups s.graph s'.graph paths config := by
  obtain ⟨members, bs, config, hcliques, hfit, hbranch, hsource, hrun⟩ :=
    carryOut_whole_eq oracle h hq hp hall
  have hstart : (s.graph.withoutAll members).nodes.get? p.set.source = some config :=
    Graph.get?_nodes_withoutAll.trans ((if_neg fun hm => (hfit.mem_nodes hq h hm).2 rfl).trans hsource)
  refine ⟨_, _, _, config, hrun, Graph.reworked_whole h hq hfit hbranch config, rfl,
    by rw [hcliques]; rfl, hsource, List.forall_mem_singleton.mpr ⟨config, .source hall rfl, ?_⟩,
    fun hpart => absurd hall (Bool.eq_false_iff.mp hpart)⟩
  exact Graph.built_withPath (h.withoutAll members) hstart p.set rfl
    (Graph.next_withoutAll ..).symm rfl

theorem guarded_anchors {oracle : Oracle σ} {g : Graph} {set : BranchSet} {config : Config}
    {parts : List Part} {paths : List MergedPath} (hparts : ∀ part ∈ parts, Prepared oracle set part)
    (hpaths : List.Forall₂ (BranchSet.PathOf g set config) parts paths) :
    List.Forall₂ (Guarded oracle g set config) paths
      (BranchSet.anchors (paths.map (·.group)) parts) := by
  induction hpaths with
  | nil => exact .nil
  | cons hpath _ ih =>
    obtain ⟨hpart, hparts⟩ := List.forall_mem_cons.mp hparts
    exact .cons ⟨rfl, hpath.branches ▸ hpart.guard, hpath.built⟩ (ih hparts)

/-- A regrouped split is one whose paths stand behind anchors. -/
theorem resplit_regroup {oracle : Oracle σ} {g g' : Graph} {set : BranchSet} {config : Config}
    {paths : List MergedPath} {anchors : List (NodeId × Effect)}
    (h : Regrouping g g' set cases paths anchors)
    (hguarded : List.Forall₂
      (Guarded oracle (set.regroup g' (Regrouping.ids paths) anchors) set config) paths anchors) :
    Resplit oracle (set.regroup g' (Regrouping.ids paths) anchors) set config paths
      (set.regrouped (g'.withoutAll (Regrouping.ids paths)) anchors) anchors where
  split := Table.get?_insert_self ..
  shared := rfl
  entries := by
    rw [h.toList_guards, h.qualified.entries]
    refine congrArg (· ++ anchors) (List.filter_congr fun e _ => Bool.eq_iff_iff.mpr ?_)
    simp [Regrouping.mem_ids]
  guarded := hguarded

theorem carryOut_parts_constructs (oracle : Oracle σ) (h : s.graph.Sound)
    (hq : Qualified s.graph p.set cases) (hp : p.Fits) (hne : p.cliques ≠ [])
    (hall : p.coversSplit = false) :
    (∃ groups s' paths config, EStateM.run (carryOut oracle p) s = .ok groups s' ∧
      Constructs oracle p groups s.graph s'.graph paths config) ∨
    ∃ e s', EStateM.run (carryOut oracle p) s = .error e s' ∧ s'.graph = s.graph ∧
      ∃ c ∈ p.cliques, GuardFails oracle p.set c e := by
  obtain ⟨config, hsource, hconfig⟩ := Update.config_eq (h.split_source _ hq.source_mem_splits)
  have hprepare : Quiet
      (fun parts => parts.map (·.members) = p.cliques ∧ ∀ part ∈ parts, Prepared oracle p.set part)
      (fun e => ∃ c ∈ p.cliques, GuardFails oracle p.set c e)
      (p.cliques.mapM (prepare oracle p.set)) := by
    refine Quiet.mapM_keyed fun c hc => ?_
    refine (quiet_prepare oracle hq.nodes_nodup ?_ (hp.mem c hc)).imp (fun _ => id) ?_
    · exact List.ne_nil_of_length_pos (Nat.lt_of_lt_of_le Nat.two_pos (hp.large c hc))
    · exact fun e he => ⟨c, hc, he⟩
  have hcarry : EStateM.run (carryOut oracle p) s =
      EStateM.run (do
        let parts ← p.cliques.mapM (prepare oracle p.set)
        update (p.set.mergeParts config parts)) s := by
    unfold carryOut
    simp only [EStateM.run_bind, EStateM.run_get, update_run, Update.ofExcept_run, hconfig, hall]
    -- a plan of one clique is told apart by `coversSplit` alone
    cases p.cliques with
    | nil => rfl
    | cons c cs => cases cs <;> rfl
  rw [hcarry, EStateM.run_bind]
  have hs := hprepare s
  cases hrun : EStateM.run (p.cliques.mapM (prepare oracle p.set)) s with
  | error e s' =>
    rw [hrun] at hs
    exact Or.inr ⟨e, s', rfl, hs⟩
  | ok parts s' =>
    rw [hrun] at hs
    obtain ⟨hgraph, hcliques, hparts⟩ := hs
    have hpartsne : parts ≠ [] := by
      rintro rfl
      exact hne hcliques.symm
    obtain ⟨paths, g', _, rfl, hmerge, hregroup, hpaths⟩ :=
      BranchSet.mergeParts_run h hq hpartsne (fun part hpart => (hparts part hpart).members) config
    have hresplit := resplit_regroup hregroup (guarded_anchors hparts hpaths)
    simp only [update_run, hgraph, hmerge]
    refine Or.inl ⟨_, _, paths, config, rfl, Graph.reworked_parts hregroup, rfl,
      (BranchSet.members_of_paths hpaths).trans hcliques, hsource, fun path hpath => ?_,
      fun _ => ⟨_, _, hresplit⟩⟩
    obtain ⟨part, hpart, hof⟩ := BranchSet.exists_mem_of_forall₂ hpaths hpath
    refine ⟨_, .fresh hall (hregroup.anchored path hpath).anchor_new ?_, hof.built⟩
    rw [hof.branches]
    exact (hparts part hpart).guard

/-- A plan made for a split as it stands is carried out, unless the oracle
fails. -/
theorem carryOut_constructs (oracle : Oracle σ) (h : s.graph.Sound)
    (hq : Qualified s.graph p.set cases) (hp : p.Fits) (hne : p.cliques ≠ []) :
    (∃ groups s' paths config, EStateM.run (carryOut oracle p) s = .ok groups s' ∧
      Constructs oracle p groups s.graph s'.graph paths config) ∨
    ∃ e s', EStateM.run (carryOut oracle p) s = .error e s' ∧ s'.graph = s.graph ∧
      ∃ c ∈ p.cliques, GuardFails oracle p.set c e := by
  cases hall : p.coversSplit with
  | false => exact carryOut_parts_constructs oracle h hq hp hne hall
  | true => exact Or.inl (carryOut_whole_constructs oracle h hq hp hall)

theorem carryOut_run (oracle : Oracle σ) (h : s.graph.Sound) (hq : Qualified s.graph p.set cases)
    (hp : p.Fits) (hne : p.cliques ≠ []) :
    PlanEnds oracle p s (EStateM.run (carryOut oracle p) s) := by
  rcases carryOut_constructs oracle h hq hp hne with ⟨groups, s', paths, config, hrun, hmade⟩ |
    ⟨e, s', hrun, hfails⟩
  · rw [hrun]
    exact hmade.carried
  · rw [hrun]
    exact hfails

theorem carryOut_keeps (oracle : Oracle σ) (h : s.graph.Sound)
    (hq : Qualified s.graph p.set cases) (hp : p.Fits) (hne : p.cliques ≠ []) :
    Keeps s.graph
      (fun e s' => s'.graph = s.graph ∧ ∃ c ∈ p.cliques, GuardFails oracle p.set c e)
      (EStateM.run (carryOut oracle p) s) := by
  have hends := carryOut_run oracle h hq hp hne
  cases hrun : EStateM.run (carryOut oracle p) s with
  | error e s' =>
    rw [hrun] at hends
    exact keeps_error (hends.1.symm ▸ h) (hends.1.symm ▸ .refl _) hends
  | ok groups s' =>
    rw [hrun] at hends
    obtain ⟨paths, hreworked, -⟩ := hends
    exact keeps_ok hreworked.sound' hreworked.grows

end Merging

end StateGraph
