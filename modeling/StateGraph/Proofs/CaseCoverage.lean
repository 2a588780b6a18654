-- Merging keeps the path conditions that tell cases apart. The end of a path that starts at
-- an anchor of its own is open wherever one of its branches was. A target behind it is open
-- where the first branch that led there was, and so a case of that branch goes on. Branches
-- that meet at a target after it are not heard of there.
import StateGraph.Proofs.BuiltPaths
import StateGraph.Proofs.InStep
import StateGraph.Proofs.Valuations

namespace StateGraph

/-! ## Branches before they are merged -/

/-- Of some nodes this is the lowest with an edge to a target. -/
structure FirstTo (g : Graph) (members : List NodeId) (m t : NodeId) : Prop where
  mem : m ∈ members
  edge : (⟨m, t⟩ : Link) ∈ g.edges
  lowest : ∀ n ∈ members, (⟨n, t⟩ : Link) ∈ g.edges → m ≤ n

variable {g : Graph} {members : List NodeId} {m n t : NodeId}

/-- Of branches in ascending order the first with a property is the lowest. -/
theorem node_le_of_find? {bs : List Branch} {P : Branch → Bool} {b b' : Branch}
    (hascending : (bs.map (·.node)).Pairwise (· < ·)) (hfind : bs.find? P = some b)
    (hb' : b' ∈ bs) (hP : P b' = true) : b.node ≤ b'.node := by
  obtain ⟨-, before, after, rfl, hbefore⟩ := List.find?_eq_some_iff_append.mp hfind
  rw [List.pairwise_map] at hascending
  rcases List.mem_append.mp hb' with hb' | hb'
  · have hno := hbefore b' hb'
    rw [hP] at hno
    cases hno
  · rcases List.mem_cons.mp hb' with rfl | hb'
    · exact Nat.le_refl _
    · have hlater := (List.pairwise_append.mp hascending).2.1
      exact Nat.le_of_lt ((List.pairwise_cons.mp hlater).1 b' hb')

theorem FirstTo.eq (h : FirstTo g members m t) (h' : FirstTo g members n t) : m = n :=
  Nat.le_antisymm (h.lowest n h'.mem h'.edge) (h'.lowest m h.mem h.edge)

namespace Qualified

variable {set : BranchSet} {cases : Cases} {config : Config} {b : Branch} {bs : List Branch}

theorem governs (h : Qualified g set cases) (hb : b ∈ set.branches) :
    Governs g.splits set.source b.node := by
  refine Graph.governorOf_eq_some.mp ?_
  rw [Graph.governorOf, (h.branch b hb).owners]
  rfl

/-- Where path conditions are in step, a branch holds what its split gives it. -/
theorem constraints_eq (h : Qualified g set cases) (hstep : g.InStep) (hb : b ∈ set.branches)
    (hconfig : g.nodes.get? set.source = some config) :
    g.constraints? b.node = some (config.constraints ++ (set.fullGuard b).constraints) := by
  obtain ⟨source, target, cases', guard, hsource, htarget, hcases, hguard, he⟩ :=
    hstep _ _ (h.governs hb)
  obtain rfl := Option.some.inj (hconfig.symm.trans hsource)
  obtain rfl := Option.some.inj (h.split.symm.trans hcases)
  obtain rfl := Option.some.inj ((h.get?_guard hb).symm.trans hguard)
  rw [Graph.constraints?, htarget, Option.map_some, he, h.shared, List.append_assoc]
  rfl

/-- A branch is open where its source is and its guard holds. -/
theorem admits_iff (h : Qualified g set cases) (hstep : g.InStep) (hb : b ∈ set.branches)
    (hconfig : g.nodes.get? set.source = some config) (v : Valuation) :
    g.Admits v b.node ↔
      v.HoldAll config.constraints ∧ v.HoldAll (set.fullGuard b).constraints := by
  rw [Graph.admits_iff (h.constraints_eq hstep hb hconfig), v.holdAll_append]

/-- The branch that a target has its guard of is the first member that led there. -/
theorem firstTo (h : Qualified g set cases) (hbs : MembersOf set members bs)
    (hascending : members.Pairwise (· < ·)) (hfind : bs.find? (·.target == t) = some b) :
    FirstTo g members b.node t := by
  have hb : b ∈ bs := List.mem_of_find?_eq_some hfind
  have htarget : b.target = t := by simpa using List.find?_some hfind
  rw [← hbs.nodes] at hascending ⊢
  refine ⟨List.mem_map_of_mem hb, (h.branch b (hbs.mem b hb)).mem_edges_iff.mpr htarget.symm,
    fun n hn hin => ?_⟩
  obtain ⟨b', hb', rfl⟩ := List.mem_map.mp hn
  have htarget' := (h.branch b' (hbs.mem b' hb')).mem_edges_iff.mp hin
  exact node_le_of_find? hascending hfind hb' (beq_iff_eq.mpr htarget'.symm)

end Qualified

/-! ## Paths after a round -/

/-- The default guard is the one that an oracle gives unless it says otherwise. -/
theorem Oracle.Gives.eq_anyOf {σ : Type} {mergeable : Config → Config → EStateM Error σ Bool}
    {guards : List Effect} {guard : Effect}
    (h : ({ mergeable := mergeable } : Oracle σ).Gives guards guard) : guard = anyOf guards := by
  obtain ⟨m, m', hrun⟩ := h
  cases hrun
  rfl

namespace Merging.Made

variable {σ : Type} {oracle : Oracle σ} {g₀ : Graph} {p : Plan} {path : MergedPath}
  {config c : Config} {cases : Cases}

/-- A path starts at the source of its split if it takes in all branches, and only then. -/
theorem anchor_eq_iff (h : Made oracle g₀ g p path config c) (h₀ : g₀.Sound)
    (hq : Qualified g₀ p.set cases) :
    path.group.anchor = path.group.splitSource ↔ p.coversSplit = true := by
  have hsource := (h₀.in_range _ (h₀.split_source _ hq.source_mem_splits)).2
  rw [h.splitSource]
  cases h.starts with
  | source hwhole hanchor => exact ⟨fun _ => hwhole, fun _ => hanchor⟩
  | fresh hpart hanchor _ =>
    refine ⟨fun he => ?_, fun hwhole => ?_⟩
    · exact absurd (he ▸ hanchor) (Nat.not_le.mpr hsource)
    · rw [hpart] at hwhole
      cases hwhole

/-- A path that takes in all branches holds what the source of its split held. -/
theorem eq_of_whole (h : Made oracle g₀ g p path config c) (hwhole : p.coversSplit = true) :
    c = config := by
  cases h.starts with
  | source => rfl
  | fresh hpart =>
    rw [hwhole] at hpart
    cases hpart

/-- What the split at the end of a path does for a target that its branches led to. -/
theorem branchEffect?_eq (h : Made oracle g₀ g p path config c) {b : Branch}
    (hfind : path.branches.find? (·.target == t) = some b) :
    ∃ ends, g.splits.get? path.group.merged = some ends ∧
      ends.branchEffect? t = some (p.set.fullGuard b) := by
  refine ⟨_, h.stands.split, ?_⟩
  rw [Cases.branchEffect?, BranchSet.get?_targets, hfind]
  rfl

/-- A target that the split at the end of a path governs holds what the path holds, then
what the first branch that led there assumes. -/
theorem target_constraints (h : Made oracle g₀ g p path config c) (hstep : g.InStep)
    (ht : Governs g.splits path.group.merged t) :
    ∃ b, path.branches.find? (·.target == t) = some b ∧
      g.constraints? t = some (c.constraints ++ (p.set.fullGuard b).constraints) := by
  obtain ⟨source, target, ends, guard, hsource, htarget, hends, hguard, he⟩ := hstep _ _ ht
  obtain rfl := Option.some.inj (h.stands.node.symm.trans hsource)
  obtain rfl := Option.some.inj (h.stands.split.symm.trans hends)
  rw [BranchSet.get?_targets] at hguard
  obtain ⟨b, hb, rfl⟩ := Option.map_eq_some_iff.mp hguard
  refine ⟨b, hb, ?_⟩
  rw [Graph.constraints?, htarget, Option.map_some, he, List.append_assoc]
  rfl

/-- The first branch that led to a target, as one of the split that was merged. -/
theorem firstTo (h : Made oracle g₀ g p path config c) (hq : Qualified g₀ p.set cases)
    (hp : p.Fits) {b : Branch} (hfind : path.branches.find? (·.target == t) = some b) :
    b ∈ p.set.branches ∧ FirstTo g₀ path.group.members b.node t :=
  ⟨h.members.mem b (List.mem_of_find?_eq_some hfind),
    hq.firstTo h.members (hp.ascending _ h.clique) hfind⟩

/-- Each branch of a path had one edge, and what it led to has a first branch. -/
theorem exists_find (h : Made oracle g₀ g p path config c) (hq : Qualified g₀ p.set cases)
    (hm : m ∈ path.group.members) : ∃ t b, path.branches.find? (·.target == t) = some b ∧
      ∀ t', (⟨m, t'⟩ : Link) ∈ g₀.edges ↔ t' = t := by
  rw [← h.members.nodes] at hm
  obtain ⟨own, hown, rfl⟩ := List.mem_map.mp hm
  obtain ⟨b, hb⟩ := Option.isSome_iff_exists.mp
    (List.find?_isSome (p := (·.target == own.target)).mpr ⟨own, hown, beq_self_eq_true _⟩)
  exact ⟨own.target, b, hb, fun t' => (hq.branch own (h.members.mem own hown)).mem_edges_iff⟩

variable {mergeable : Config → Config → EStateM Error σ Bool}

/-- A path with an anchor of its own assumes the guard of some branch, on top of what the
source of its split assumes. -/
theorem holdAll_iff (h : Made { mergeable := mergeable } g₀ g p path config c)
    (hpart : p.coversSplit = false) (v : Valuation) :
    v.HoldAll c.constraints ↔ v.HoldAll config.constraints ∧
      ∃ b ∈ path.branches, v.HoldAll (p.set.fullGuard b).constraints := by
  cases h.starts with
  | source hwhole _ =>
    rw [hpart] at hwhole
    cases hwhole
  | fresh _ _ hgiven =>
    obtain rfl := hgiven.eq_anyOf
    have hany : v.HoldAll (anyOf (path.branches.map p.set.fullGuard)).constraints ↔
        ∃ b ∈ path.branches, v.HoldAll (p.set.fullGuard b).constraints := by
      rw [v.holdAll_anyOf]
      simp
    -- the shared formulas come twice: on their own and in the guard of every branch
    have hshared : (∃ b ∈ path.branches, v.HoldAll (p.set.fullGuard b).constraints) →
        v.HoldAll p.set.shared.constraints := fun ⟨_, _, hb⟩ => ((v.holdAll_append _ _).mp hb).1
    rw [Config.addConstraints, v.holdAll_append, v.holdAll_append, hany,
      and_iff_right_of_imp hshared]

/-- The end of a path with an anchor of its own is open where one of its branches was. -/
theorem merged_open (h : Made { mergeable := mergeable } g₀ g p path config c)
    (hq : Qualified g₀ p.set cases) (hstep : g₀.InStep) (hpart : p.coversSplit = false)
    (v : Valuation) :
    g.Admits v path.group.merged ↔ ∃ m ∈ path.group.members, g₀.Admits v m := by
  have hheld : g.constraints? path.group.merged = some c.constraints := by
    rw [Graph.constraints?, h.stands.node, Option.map_some]
  have hbranch : ∀ b ∈ path.branches, (g₀.Admits v b.node ↔
      v.HoldAll config.constraints ∧ v.HoldAll (p.set.fullGuard b).constraints) := fun b hb =>
    hq.admits_iff hstep (h.members.mem b hb) h.source v
  rw [Graph.admits_iff hheld, h.holdAll_iff hpart, ← h.members.nodes]
  constructor
  · rintro ⟨hsource, b, hb, hguard⟩
    exact ⟨b.node, List.mem_map_of_mem hb, (hbranch b hb).mpr ⟨hsource, hguard⟩⟩
  · rintro ⟨m, hm, hopen⟩
    obtain ⟨b, hb, rfl⟩ := List.mem_map.mp hm
    obtain ⟨hsource, hguard⟩ := (hbranch b hb).mp hopen
    exact ⟨hsource, b, hb, hguard⟩

/-- A target that the split at the end of a path governs is open where the first branch
that led there was. A path that takes in all branches leaves it the very same formulas. -/
theorem target_open (h : Made { mergeable := mergeable } g₀ g p path config c)
    (hq : Qualified g₀ p.set cases) (hp : p.Fits) (hstep₀ : g₀.InStep) (hstep : g.InStep)
    (ht : Governs g.splits path.group.merged t) :
    ∃ m, FirstTo g₀ path.group.members m t ∧ (∀ v, g.Admits v t ↔ g₀.Admits v m) ∧
      (p.coversSplit = true → g.constraints? t = g₀.constraints? m) := by
  obtain ⟨b, hfind, hheld⟩ := h.target_constraints hstep ht
  obtain ⟨hb, hfirst⟩ := h.firstTo hq hp hfind
  have hbranch := hq.constraints_eq hstep₀ hb h.source
  have hsame : p.coversSplit = true → g.constraints? t = g₀.constraints? b.node := by
    intro hwhole
    rw [hheld, hbranch, h.eq_of_whole hwhole]
  refine ⟨b.node, hfirst, fun v => ?_, hsame⟩
  cases hcovers : p.coversSplit with
  | true => rw [Graph.Admits, hsame hcovers, Graph.Admits]
  | false =>
    rw [Graph.admits_iff hheld, Graph.admits_iff hbranch, v.holdAll_append, v.holdAll_append,
      h.holdAll_iff hcovers]
    refine and_congr_left fun hguard => and_iff_left ?_
    exact ⟨b, List.mem_of_find?_eq_some hfind, hguard⟩

end Merging.Made

/-- Each group of a session of one round is that of a path, of a plan for a split that
qualified when the session began. -/
theorem Merging.run_one_made {σ : Type} {oracle : Oracle σ} {s s' : Session σ} {report : Report}
    (h : s.graph.Sound) (hrun : EStateM.run (Merging.run oracle 1) s = .ok report s') :
    ∀ r ∈ report.groups, ∃ p path config c cases, Qualified s.graph p.set cases ∧ p.Fits ∧
      path.group = r ∧ Made oracle s.graph s'.graph p path config c := by
  intro r hr
  obtain ⟨p, groups, g₁, g₂, paths, config, hp, hr, -⟩ := run_one_served h hrun r hr
  obtain ⟨path, hpath, rfl⟩ := hp.exists_path hr
  obtain ⟨c, hmade⟩ := hp.made h hpath
  obtain ⟨cases, hq⟩ := Graph.qualified_of_mem hp.set
  exact ⟨p, path, config, c, cases, hq, hp.fits, rfl, hmade⟩

/-! ## Path conditions -/

/-- A round of merging keeps path conditions that are in step. Where a group has an anchor
of its own, its end is open exactly where one of its members was. A target that its end
governs is open exactly where the first member that led there was, and holds the very
same formulas if the group takes in its whole split. -/
theorem Reachable.merging_keeps_conditions {g : Graph} (h : Reachable g)
    (hzero : ∃ g', Update.propagate.run g = .ok 0 g') {σ : Type}
    (mergeable : Config → Config → EStateM Error σ Bool) {memory : σ} {report : Report}
    {s' : Session σ} (hrun : EStateM.run (Merging.run { mergeable := mergeable } 1)
      { graph := g, memory := memory } = .ok report s') :
    ∀ r ∈ report.groups, r.merged ∈ s'.graph.nodes ∧ (∀ m ∈ r.members, m ∈ g.nodes) ∧
      (∃ cases, g.splits.get? r.splitSource = some cases ∧
        (r.anchor = r.splitSource ↔ r.members = cases.targets)) ∧
      (r.anchor ≠ r.splitSource →
        ∀ v, s'.graph.Admits v r.merged ↔ ∃ m ∈ r.members, g.Admits v m) ∧
      ∀ t ∈ r.targets, Governs s'.graph.splits r.merged t → t ∈ s'.graph.nodes ∧
        ∃ m, FirstTo g r.members m t ∧ (∀ v, s'.graph.Admits v t ↔ g.Admits v m) ∧
          (r.anchor = r.splitSource → s'.graph.constraints? t = g.constraints? m) := by
  intro r hr
  let s : Session σ := { graph := g, memory := memory }
  have hstep : g.InStep := (Update.propagate_zero_iff h.sound).mp hzero
  have hstep' : s'.graph.InStep := Merging.rounds_inStep (s := s) h.sound hstep hrun
  have hkeeps := Merging.rounds_keeps { mergeable := mergeable } 1 {} (s := s) h.sound
  rw [← Merging.run, hrun] at hkeeps
  obtain ⟨p, path, config, c, cases, hq, hp, rfl, hmade⟩ :=
    Merging.run_one_made (s := s) h.sound hrun r hr
  have hwhole := hmade.anchor_eq_iff h.sound hq
  refine ⟨Table.mem_of_get? hmade.stands.node,
    fun m hm => (hmade.members.mem_nodes hq h.sound hm).1,
    ⟨cases, hmade.splitSource ▸ hq.split,
      hwhole.trans (Merging.coversSplit_iff_targets hq hp hmade.clique)⟩,
    fun hown => hmade.merged_open hq hstep (Bool.not_eq_true _ ▸ hwhole.not.mp hown),
    fun t _ ht => ⟨hkeeps.sound.split_target _ _ ht.branchesTo, ?_⟩⟩
  obtain ⟨m, hfirst, hopen, hsame⟩ := hmade.target_open hq hp hstep hstep' ht
  exact ⟨m, hfirst, hopen, fun hanchor => hsame (hwhole.mp hanchor)⟩

theorem exists_settled {g : Graph} (h : endsWith (· == 0) (Update.propagate.run g) = true) :
    ∃ g', Update.propagate.run g = .ok 0 g' := by
  obtain ⟨n, g', hrun, hn⟩ := exists_ok_of_endsWith h
  obtain rfl : n = 0 := beq_iff_eq.mp hn
  exact ⟨g', hrun⟩

/-- Calls that make a split of which two pairs of branches may be merged, but not the third.
The last two branches lead to the same node. -/
def overlap : List Call :=
  (["A", "X", "Y", "Z", "T", "T"].map fun x => .addNode { term := .var x }) ++
    [.createEdge 2 5 [.guard .top], .createEdge 3 6 [.guard .top], .createEdge 4 6 [.guard .top],
      .createSplit 1 { guards := .ofList [(2, .assume [.var "P"]), (3, .assume [.var "Q"]),
        (4, .assume [.var "R"])] }]

theorem reachable_overlap : Reachable (Graph.empty.afterAll overlap) :=
  ⟨.empty, overlap, .empty, rfl⟩

/-- Whether two configurations may share a path: "X" may not with "Z". -/
def apartXZ (a b : Config) : EStateM Error Unit Bool :=
  pure !(a.term == .var "X" && b.term == .var "Z")

theorem firstTo_overlap : FirstTo (Graph.empty.afterAll overlap) [2, 3] 3 6 where
  mem := by decide
  edge := by decide +kernel
  lowest := by decide +kernel

theorem settled_overlap : ∃ g', Update.propagate.run (Graph.empty.afterAll overlap) = .ok 0 g' :=
  exists_settled (by decide +kernel)

/-- Merging puts the first two branches into a group with an anchor of its own, and the last
two into another. The first group governs the node where they meet. -/
theorem run_overlap : ∃ report s', EStateM.run (Merging.run { mergeable := apartXZ } 1)
      { graph := Graph.empty.afterAll overlap, memory := () } = .ok report s' ∧
    (⟨1, [2, 3], 7, 8, [5, 6]⟩ : Group) ∈ report.groups ∧ Governs s'.graph.splits 8 6 := by
  let run := EStateM.run (Merging.run { mergeable := apartXZ } 1)
    { graph := Graph.empty.afterAll overlap, memory := () }
  obtain ⟨report, s', hrun, hgroups⟩ := exists_ok_of_endsWith (r := run)
    (p := fun report : Report => report.groups ==
      [⟨1, [2, 3], 7, 8, [5, 6]⟩, ⟨1, [3, 4], 9, 10, [6]⟩]) (by decide +kernel)
  have hgoverns : Governs (stateOf run).graph.splits 8 6 :=
    Graph.governorOf_eq_some.mp (by decide +kernel)
  rw [hrun] at hgoverns
  refine ⟨report, s', hrun, ?_, hgoverns⟩
  rw [beq_iff_eq.mp hgroups]
  exact List.mem_cons_self

theorem merging_keeps_conditions_overlap :
    let g := Graph.empty.afterAll overlap
    Reachable g ∧ (∃ g', Update.propagate.run g = .ok 0 g') ∧ ∃ report s' r,
      EStateM.run (Merging.run { mergeable := apartXZ } 1) { graph := g, memory := () } =
        .ok report s' ∧
      r ∈ report.groups ∧ r.members = [2, 3] ∧ r.anchor ≠ r.splitSource ∧ 6 ∈ r.targets ∧
      Governs s'.graph.splits r.merged 6 ∧
      (∀ v, s'.graph.Admits v r.merged ↔ g.Admits v 2 ∨ g.Admits v 3) ∧
      ∀ v, s'.graph.Admits v 6 ↔ g.Admits v 3 := by
  intro g
  obtain ⟨report, s', hrun, hr, hgoverns⟩ := run_overlap
  obtain ⟨-, -, -, hmerged, htargets⟩ :=
    reachable_overlap.merging_keeps_conditions settled_overlap apartXZ hrun _ hr
  obtain ⟨-, m, hfirst, hopen, -⟩ := htargets 6 (by decide) hgoverns
  obtain rfl : m = 3 := hfirst.eq firstTo_overlap
  refine ⟨reachable_overlap, settled_overlap, report, s', _, hrun, hr, rfl, by decide, by decide,
    hgoverns, fun v => ?_, hopen⟩
  rw [hmerged (by decide) v]
  simp [g]

/-! ## Cases -/

/-- A round of merging keeps the cases of first members, whatever the oracle. A member had
an edge to one target. If no member before it led there, then where it was open, so is
the branch to that target at the end of its group. -/
theorem Reachable.merging_keeps_cases {g : Graph} (h : Reachable g)
    (hzero : ∃ g', Update.propagate.run g = .ok 0 g') {σ : Type} {oracle : Oracle σ} {memory : σ}
    {report : Report} {s' : Session σ} (hrun : EStateM.run (Merging.run oracle 1)
      { graph := g, memory := memory } = .ok report s') :
    ∀ r ∈ report.groups, ∃ ends, s'.graph.splits.get? r.merged = some ends ∧
      ∀ m ∈ r.members, ∃ t, (∀ t', (⟨m, t'⟩ : Link) ∈ g.edges ↔ t' = t) ∧
        (FirstTo g r.members m t → ∀ v, g.Admits v m →
          ∃ effect, ends.branchEffect? t = some effect ∧ v.HoldAll effect.constraints) := by
  intro r hr
  have hstep : g.InStep := (Update.propagate_zero_iff h.sound).mp hzero
  obtain ⟨p, path, config, c, cases, hq, hp, rfl, hmade⟩ :=
    Merging.run_one_made (s := { graph := g, memory := memory }) h.sound hrun r hr
  refine ⟨_, hmade.stands.split, fun m hm => ?_⟩
  obtain ⟨t, b, hfind, hedge⟩ := hmade.exists_find hq hm
  refine ⟨t, hedge, fun hfirst v hopen => ?_⟩
  obtain ⟨hb, hfirst'⟩ := hmade.firstTo hq hp hfind
  obtain rfl : m = b.node := hfirst.eq hfirst'
  obtain ⟨ends, hends, heffect⟩ := hmade.branchEffect?_eq hfind
  obtain rfl := Option.some.inj (hmade.stands.split.symm.trans hends)
  exact ⟨_, heffect, ((hq.admits_iff hstep hb hmade.source v).mp hopen).2⟩

theorem merging_keeps_cases_overlap :
    let g := Graph.empty.afterAll overlap
    (∃ g', Update.propagate.run g = .ok 0 g') ∧ g.Admits (.ofAtoms (· == .var "Q")) 3 ∧
      ∃ report s' r ends, EStateM.run (Merging.run { mergeable := apartXZ } 1)
          { graph := g, memory := () } = .ok report s' ∧
        r ∈ report.groups ∧ 3 ∈ r.members ∧ s'.graph.splits.get? r.merged = some ends ∧
        ∀ v, g.Admits v 3 →
          ∃ effect, ends.branchEffect? 6 = some effect ∧ v.HoldAll effect.constraints := by
  intro g
  obtain ⟨report, s', hrun, hr, -⟩ := run_overlap
  obtain ⟨ends, hends, hcases⟩ := reachable_overlap.merging_keeps_cases settled_overlap hrun _ hr
  obtain ⟨t, hedge, hkept⟩ := hcases 3 (by decide)
  obtain rfl : 6 = t := (hedge 6).mp firstTo_overlap.edge
  exact ⟨settled_overlap, ⟨[.var "Q"], by decide +kernel, by decide⟩, report, s', _, ends, hrun, hr,
    by decide, hends, hkept firstTo_overlap⟩

/-- Calls that make a split whose branches lead to the same node. -/
def diamond : List Call :=
  List.replicate 4 (.addNode { term := .var "X" }) ++
    [.createEdge 2 4 [.guard .top], .createEdge 3 4 [.guard .top],
      .createSplit 1 { guards := .ofList [(2, .assume [.var "P"]), (3, .assume [.var "Q"])] }]

/-- Of two branches that lead to the same node, the case of the second is lost. -/
theorem merging_drops_cases_diamond :
    let g := Graph.empty.afterAll diamond
    let v := Valuation.ofAtoms (· == .var "Q")
    Reachable g ∧ (∃ g', Update.propagate.run g = .ok 0 g') ∧ ∃ report s' r ends,
      EStateM.run (Merging.run { mergeable := fun _ _ => pure true } 1)
        { graph := g, memory := () } = .ok report s' ∧
      r ∈ report.groups ∧ 3 ∈ r.members ∧ g.Admits v 3 ∧
      s'.graph.splits.get? r.merged = some ends ∧
      ∀ t effect, ends.branchEffect? t = some effect → ¬ v.HoldAll effect.constraints := by
  intro g v
  let oracle : Oracle Unit := { mergeable := fun _ _ => pure true }
  let s : Session Unit := { graph := g, memory := () }
  let left : Graph := (stateOf (EStateM.run (Merging.run oracle 1) s)).graph
  let r : Group := ⟨1, [2, 3], 1, 5, [4]⟩
  let ends : Cases := { guards := .ofList [(4, .assume [.var "P"])] }
  obtain ⟨report, s', hrun, hgroups⟩ := exists_ok_of_endsWith
    (p := fun report : Report => report.groups.contains r)
    (r := EStateM.run (Merging.run oracle 1) s) (by decide +kernel)
  have hleft : left = s'.graph := congrArg (fun r => (stateOf r).graph) hrun
  have hends : left.splits.get? 5 = some ends := by decide +kernel
  refine ⟨⟨.empty, diamond, .empty, rfl⟩, exists_settled (by decide +kernel), report, s', r, ends,
    hrun, List.contains_iff_mem.mp hgroups, by decide, ⟨[.var "Q"], by decide +kernel, by decide⟩,
    hleft ▸ hends, fun t effect heffect => ?_⟩
  obtain ⟨guard, hguard, rfl⟩ := Option.map_eq_some_iff.mp heffect
  have hin : (t, guard) ∈ [((4 : NodeId), Effect.assume [.var "P"])] := Table.get?_eq_some.mp hguard
  obtain ⟨rfl, rfl⟩ := Prod.mk.inj (List.mem_singleton.mp hin)
  decide

end StateGraph
