-- What one round builds, in full. A group becomes an edge that runs its members one after
-- another, and a split to where they led. What its split is left with is told by all groups
-- of the split together. What the round does elsewhere touches neither.
import StateGraph.Proofs.CaseCoverage

namespace StateGraph

/-! ## What comes of a split -/

/-- A chain takes some branches of a split one after another: a step that takes the full
guard of a branch, then the steps of the only edge that leaves it. -/
inductive Runs (g : Graph) (cases : Cases) : List NodeId → Chain → Prop
  | nil : Runs g cases [] []
  | cons {m : NodeId} {members : List NodeId} {effect : Effect} {l : Link} {steps chain : Chain}
      (guard : cases.branchEffect? m = some effect)
      (edge : g.edgesWhere (some m) none = [(l, steps)]) (rest : Runs g cases members chain) :
      Runs g cases (m :: members) (Step.guard effect :: (steps ++ chain))

/-- What a group has made of branches of a split in `g`. In `g'` its edge runs the members
by ascending name, and its end splits to where they led, each target with the guard of the
first member that led there. -/
structure Joins (g g' : Graph) (cases : Cases) (r : Group) : Prop where
  ascending : r.members.Pairwise (· < ·)
  branches : ∀ m ∈ r.members, m ∈ cases.guards
  path : ∃ chain, g'.edges.get? ⟨r.anchor, r.merged⟩ = some chain ∧ Runs g cases r.members chain
  ends : ∃ ends, g'.splits.get? r.merged = some ends ∧ ends.shared = cases.shared ∧
    (∀ t, t ∈ ends.guards ↔ ∃ m ∈ r.members, (⟨m, t⟩ : Link) ∈ g.edges) ∧
    ∀ m t, FirstTo g r.members m t → ends.guards.get? t = cases.guards.get? m

/-- What a split is left with once some groups of it have anchors: the branches of no group,
with the guards they had, then the anchors in the order of the groups. The guard of an anchor
is one that the oracle has given for the full guards of the members. -/
structure LeftWith {σ : Type} (oracle : Oracle σ) (cases : Cases) (groups : List Group)
    (left : Cases) (anchors : List (NodeId × Effect)) : Prop where
  shared : left.shared = cases.shared
  entries : left.guards.toList =
    (cases.guards.toList.filter fun e => groups.all fun r => !r.members.contains e.1) ++ anchors
  anchors : List.Forall₂ (fun r e => e.1 = r.anchor ∧ ∃ effects,
    r.members.mapM cases.branchEffect? = some effects ∧ oracle.Gives effects e.2) groups anchors

namespace Qualified

variable {g : Graph} {set : BranchSet} {cases : Cases} {bs : List Branch}

theorem runs_chain (h : Qualified g set cases) (hbs : ∀ b ∈ bs, b ∈ set.branches) :
    Runs g cases (bs.map (·.node)) (set.chain bs) := by
  induction bs with
  | nil => exact .nil
  | cons b bs ih =>
    obtain ⟨hb, hbs⟩ := List.forall_mem_cons.mp hbs
    exact .cons (h.branchEffect?_eq hb) (h.branch b hb).edge (ih hbs)

theorem mapM_branchEffect? (h : Qualified g set cases) (hbs : ∀ b ∈ bs, b ∈ set.branches) :
    (bs.map (·.node)).mapM cases.branchEffect? = some (bs.map set.fullGuard) := by
  induction bs with
  | nil => rfl
  | cons b bs ih =>
    obtain ⟨hb, hbs⟩ := List.forall_mem_cons.mp hbs
    rw [List.map_cons, List.mapM_cons, h.branchEffect?_eq hb, ih hbs]
    rfl

end Qualified

namespace Merging

variable {σ : Type} {oracle : Oracle σ} {g₀ g g₁ g₂ : Graph} {p : Plan} {cases : Cases}
  {config c : Config} {path : MergedPath} {paths : List MergedPath} {groups : List Group}

/-- Branches of a path, told by what stood before the round. -/
theorem Made.joins (h : Made oracle g₀ g p path config c) (hq : Qualified g₀ p.set cases)
    (hp : p.Fits) : Joins g₀ g cases path.group where
  ascending := hp.ascending _ h.clique
  branches := by
    intro m hm
    obtain ⟨b, hb, rfl⟩ := h.members.exists_branch hm
    exact hq.mem_guards hb
  path := by
    refine ⟨_, h.stands.link, ?_⟩
    rw [← h.members.nodes]
    exact hq.runs_chain h.members.mem
  ends := by
    refine ⟨_, h.stands.split, hq.shared.symm, fun t => ?_, fun m t hfirst => ?_⟩
    · have hedge : ∀ b ∈ path.branches, (b.target = t ↔ (⟨b.node, t⟩ : Link) ∈ g₀.edges) :=
        fun b hb => eq_comm.trans (hq.branch b (h.members.mem b hb)).mem_edges_iff.symm
      rw [BranchSet.mem_targets, ← h.members.nodes]
      simp only [List.mem_map, exists_exists_and_eq_and]
      exact exists_congr fun b => and_congr_right (hedge b)
    · obtain ⟨t', b, hfind, hedge⟩ := h.exists_find hq hfirst.mem
      obtain rfl : t = t' := (hedge t).mp hfirst.edge
      obtain ⟨hb, hfirst'⟩ := h.firstTo hq hp hfind
      rw [BranchSet.get?_targets, hfind, hfirst.eq hfirst', hq.get?_guard hb]
      rfl

namespace Served

/-- Nothing that a round does after a plan touches the split of that plan. -/
theorem split_eq (h : Served oracle g₀ g p groups g₁ g₂ paths config) (h₀ : g₀.Sound) :
    g.splits.get? p.set.source = g₂.splits.get? p.set.source := by
  have hreworked := h.constructs.reworked
  obtain ⟨cases, hq⟩ := Graph.qualified_of_mem h.set
  refine Graph.split_aside h₀ hq.source_mem_splits ((hreworked.mem_nodes hreworked.source_mem).mpr ?_)
    h.since
  exact fun habs => hreworked.absorbed_no_split habs hreworked.source_splits

theorem members_eq (h : Served oracle g₀ g p groups g₁ g₂ paths config) :
    groups.map (·.members) = p.cliques := by
  rw [h.constructs.groups_eq, ← h.constructs.cliques, List.map_map]
  rfl

/-- A plan covers its split if its only group has all branches, and only then. -/
theorem coversSplit_iff (h : Served oracle g₀ g p groups g₁ g₂ paths config)
    (hq : Qualified g₀ p.set cases) {r : Group} (hr : r ∈ groups) :
    p.coversSplit = true ↔ groups = [r] ∧ ∀ t ∈ cases.guards, t ∈ r.members := by
  have hclique : r.members ∈ p.cliques := h.members_eq ▸ List.mem_map_of_mem hr
  constructor
  · intro hwhole
    obtain ⟨members, hcliques, -⟩ := Merging.coversSplit_iff.mp hwhole
    rw [← h.members_eq] at hcliques
    obtain ⟨only, rfl, -⟩ := List.map_eq_singleton_iff.mp hcliques
    obtain rfl := List.mem_singleton.mp hr
    refine ⟨rfl, fun t ht => ?_⟩
    rw [(coversSplit_iff_targets hq h.fits hclique).mp hwhole]
    exact Table.mem_keys.mpr ht
  · rintro ⟨rfl, hall⟩
    have hnodup : r.members.Nodup := (h.fits.ascending _ hclique).imp Nat.ne_of_lt
    have hperm : r.members.Perm (p.set.branches.map (·.node)) := by
      refine (List.perm_ext_iff_of_nodup hnodup hq.nodes_nodup).mpr fun t => ?_
      refine ⟨h.fits.mem _ hclique t, fun ht => hall t ?_⟩
      rwa [hq.nodes_eq, Table.mem_keys] at ht
    refine Merging.coversSplit_iff.mpr ⟨r.members, h.members_eq.symm, ?_⟩
    rw [hperm.length_eq, List.length_map]

/-- The source of a split that is covered starts a path, and has no split any more. -/
theorem whole (h : Served oracle g₀ g p groups g₁ g₂ paths config) (h₀ : g₀.Sound)
    (hwhole : p.coversSplit = true) (hpath : path ∈ paths) :
    path.group.anchor = p.set.source ∧ p.set.source ∉ g.splits := by
  obtain ⟨cases, hq⟩ := Graph.qualified_of_mem h.set
  obtain ⟨c, hmade⟩ := h.made h₀ hpath
  have hreworked := h.constructs.reworked
  have hanchor : path.group.anchor = p.set.source :=
    ((hmade.anchor_eq_iff h₀ hq).mpr hwhole).trans hmade.splitSource
  have hgone : p.set.source ∉ g₂.splits := fun hin =>
    hreworked.sound'.no_edge _ hin _ (hreworked.link_mem hpath) hanchor
  refine ⟨hanchor, Table.not_mem_iff.mpr ?_⟩
  rw [h.split_eq h₀, Table.not_mem_iff.mp hgone]

/-- A split that is not covered keeps what its groups leave of it. -/
theorem part (h : Served oracle g₀ g p groups g₁ g₂ paths config) (h₀ : g₀.Sound)
    (hq : Qualified g₀ p.set cases) (hpart : p.coversSplit = false) :
    ∃ left anchors, g.splits.get? p.set.source = some left ∧
      LeftWith oracle cases groups left anchors := by
  obtain ⟨left, anchors, hleft⟩ := h.constructs.resplit hpart
  refine ⟨left, anchors, (h.split_eq h₀).trans hleft.split, hleft.shared.trans hq.shared.symm, ?_, ?_⟩
  · rw [hleft.entries, hq.entries, h.constructs.groups_eq]
    simp only [List.all_map]
    rfl
  · rw [h.constructs.groups_eq, List.forall₂_map_left_iff]
    have hboth := (List.forall₂_and_left _ _).mpr ⟨h.constructs.reworked.members, hleft.guarded⟩
    refine hboth.imp fun path e ⟨hmembers, hguarded⟩ => ⟨hguarded.anchor, _, ?_, hguarded.given⟩
    rw [← hmembers.nodes]
    exact hq.mapM_branchEffect? hmembers.mem

end Served

end Merging

/-! ## One round -/

/-- What a round of merging makes of a split: its groups are joined, and the split goes if
its only group has all branches. Otherwise it keeps what its groups leave of it. -/
theorem Reachable.merging_builds {g : Graph} (h : Reachable g) {σ : Type} {oracle : Oracle σ}
    {memory : σ} {report : Report} {s' : Session σ} (hrun : EStateM.run (Merging.run oracle 1)
      { graph := g, memory := memory } = .ok report s') :
    ∀ r ∈ report.groups, ∃ cases, g.splits.get? r.splitSource = some cases ∧
      Joins g s'.graph cases r ∧
      let groups := report.groups.filter (·.splitSource == r.splitSource)
      (groups = [r] ∧ (∀ t ∈ cases.guards, t ∈ r.members) →
        r.anchor = r.splitSource ∧ r.splitSource ∉ s'.graph.splits) ∧
      (¬ (groups = [r] ∧ ∀ t ∈ cases.guards, t ∈ r.members) →
        ∃ left anchors, s'.graph.splits.get? r.splitSource = some left ∧
          LeftWith oracle cases groups left anchors) := by
  intro r hr
  obtain ⟨p, groups, g₁, g₂, paths, config, hserved, hr, hgroups⟩ :=
    Merging.run_one_served (s := { graph := g, memory := memory }) h.sound hrun r hr
  obtain ⟨cases, hq⟩ := Graph.qualified_of_mem hserved.set
  obtain ⟨path, hpath, rfl⟩ := hserved.exists_path hr
  obtain ⟨c, hmade⟩ := hserved.made h.sound hpath
  have hcovers := hserved.coversSplit_iff hq hr
  have hall : report.groups.filter (·.splitSource == path.group.splitSource) = groups := by
    rw [hmade.splitSource, hgroups]
  refine ⟨cases, hmade.splitSource ▸ hq.split, hmade.joins hq hserved.fits, ?_⟩
  simp only [hall, ← hcovers]
  rw [hmade.splitSource]
  refine ⟨fun hwhole => hserved.whole h.sound hwhole hpath, fun hpart => ?_⟩
  exact hserved.part h.sound hq (Bool.not_eq_true _ ▸ hpart)

theorem merging_builds_overlap :
    let g := Graph.empty.afterAll overlap
    let oracle : Oracle Unit := { mergeable := apartXZ }
    Reachable g ∧ ∃ report s' cases left anchors,
      EStateM.run (Merging.run oracle 1) { graph := g, memory := () } = .ok report s' ∧
      g.splits.get? 1 = some cases ∧ Joins g s'.graph cases ⟨1, [2, 3], 7, 8, [5, 6]⟩ ∧
      s'.graph.splits.get? 1 = some left ∧
      LeftWith oracle cases (report.groups.filter (·.splitSource == 1)) left anchors := by
  intro g oracle
  obtain ⟨report, s', hrun, hr, -⟩ := run_overlap
  obtain ⟨cases, hcases, hjoins, -, hpart⟩ := reachable_overlap.merging_builds hrun _ hr
  -- the third branch is not in the group
  have hout : ∃ c, g.splits.get? 1 = some c ∧ 4 ∈ c.guards ∧ 4 ∉ [2, 3] :=
    ⟨_, rfl, by decide, by decide⟩
  obtain ⟨c, hc, hin, hno⟩ := hout
  obtain rfl : cases = c := Option.some.inj (hcases.symm.trans hc)
  obtain ⟨left, anchors, hleft, hkept⟩ := hpart fun hwhole => hno (hwhole.2 4 hin)
  exact ⟨reachable_overlap, report, s', cases, left, anchors, hrun, hcases, hjoins, hleft, hkept⟩

end StateGraph
