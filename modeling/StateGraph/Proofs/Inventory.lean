-- The groups of a report account for all that merging has done to a graph: which nodes
-- are new and which are gone, and with them which edges and covers.
import StateGraph.Proofs.DeclinedPairs
import StateGraph.Proofs.NamesGiven

namespace StateGraph

/-! ## What groups tell -/

/-- The nodes that some groups have introduced, in the order of their names. -/
def introduced (groups : List Group) : List NodeId := groups.flatMap (·.fresh)

/-- The nodes that some groups have taken out. -/
def removed (groups : List Group) : List NodeId := groups.flatMap (·.members)

/-- The edge that runs the branches of a group. -/
def Group.link (r : Group) : Link := ⟨r.anchor, r.merged⟩

@[simp]
theorem introduced_append (groups more : List Group) :
    introduced (groups ++ more) = introduced groups ++ introduced more := List.flatMap_append

@[simp]
theorem removed_append (groups more : List Group) :
    removed (groups ++ more) = removed groups ++ removed more := List.flatMap_append

theorem mem_introduced {groups : List Group} {id : NodeId} :
    id ∈ introduced groups ↔ ∃ r ∈ groups, id ∈ r.fresh := List.mem_flatMap

theorem mem_removed {groups : List Group} {id : NodeId} :
    id ∈ removed groups ↔ ∃ r ∈ groups, id ∈ r.members := List.mem_flatMap

theorem merged_mem_introduced {groups : List Group} {r : Group} (hr : r ∈ groups) :
    r.merged ∈ introduced groups := mem_introduced.mpr ⟨r, hr, Group.mem_fresh.mpr (Or.inl rfl)⟩

theorem mem_removed_paths {paths : List MergedPath} {id : NodeId} :
    id ∈ removed (paths.map (·.group)) ↔ Absorbed paths id := by
  simp [mem_removed, Absorbed]

namespace Graph

/-- Some groups account for what became of a graph. -/
structure Accounted (g g' : Graph) (groups : List Group) : Prop where
  next_le : g.next ≤ g'.next
  /-- Every name given out was given out once, to the end or the anchor of one group. -/
  names : introduced groups = List.range' g.next (g'.next - g.next)
  /-- A node taken out had been there, or had been introduced. -/
  given : ∀ id ∈ removed groups, id < g'.next
  anchors : ∀ r ∈ groups, r.anchor ∈ g.nodes ∨ g.next ≤ r.anchor
  node : ∀ id, id ∈ g'.nodes ↔ (id ∈ g.nodes ∨ id ∈ introduced groups) ∧ id ∉ removed groups
  term : ∀ id c, g.nodes.get? id = some c → id ∉ removed groups →
    ∃ c', g'.nodes.get? id = some c' ∧ c'.term = c.term
  edge : ∀ l, l ∈ g'.edges ↔ (l ∈ g.edges ∨ l ∈ groups.map (·.link)) ∧
    l.source ∉ removed groups ∧ l.target ∉ removed groups
  /-- An edge that stays leads along the chain it had. -/
  steps : ∀ l ∈ g.edges, l.source ∉ removed groups → l.target ∉ removed groups →
    g'.edges.get? l = g.edges.get? l
  cover : ∀ l e, g'.covers.get? l = some e ↔ g.covers.get? l = some e ∧
    l.source ∉ removed groups ∧ l.target ∉ removed groups

variable {g g' g'' : Graph} {groups more : List Group}

theorem Accounted.le_of_introduced (h : Accounted g g' groups) {id : NodeId}
    (hid : id ∈ introduced groups) : g.next ≤ id := by
  rw [h.names] at hid
  exact (List.mem_range'_1.mp hid).1

/-- No two groups have introduced one name, so no two have one edge. -/
theorem Accounted.links_nodup (h : Accounted g g' groups) : (groups.map (·.link)).Nodup := by
  have hnames : (introduced groups).Nodup := h.names ▸ List.nodup_range'
  refine List.pairwise_map.mpr ((List.nodup_flatMap.mp hnames).2.imp fun hdisjoint he => ?_)
  have hmerged := congrArg Link.target he
  exact hdisjoint (Group.mem_fresh.mpr (Or.inl rfl)) (Group.mem_fresh.mpr (Or.inl hmerged))

/-- Where only path conditions change there is nothing to account for. -/
theorem Reconfigured.accounted (h : Reconfigured g g') (hterms : SameTerms g g') :
    Accounted g g' [] where
  next_le := Nat.le_of_eq h.next_eq.symm
  names := by rw [h.next_eq, Nat.sub_self]; rfl
  given := by simp [removed]
  anchors := by simp
  node := by simp [h.mem_iff, introduced, removed]
  term := by
    intro id c hc _
    obtain ⟨c', hc'⟩ := Table.mem_iff.mp ((h.mem_iff id).mpr (Table.mem_of_get? hc))
    exact ⟨c', hc', hterms id c c' hc hc'⟩
  edge := by simp [h.edges_eq, removed]
  steps := by simp [h.edges_eq]
  cover := by simp [h.covers_eq, removed]

theorem Accounted.refl (g : Graph) : Accounted g g [] :=
  (Reconfigured.refl g).accounted (.refl g)

/-- What is done after some groups is accounted for by further groups. -/
theorem Accounted.trans (h : Accounted g g' groups) (h' : Accounted g' g'' more) :
    Accounted g g'' (groups ++ more) := by
  -- what later groups introduce is too new to have been taken out by earlier ones
  have hnew : ∀ id ∈ introduced more, id ∉ removed groups := fun id hid hgone =>
    Nat.not_lt_of_le (h'.le_of_introduced hid) (h.given id hgone)
  have hlink : ∀ r ∈ more, r.anchor ∉ removed groups ∧ r.merged ∉ removed groups := by
    intro r hr
    refine ⟨fun hgone => ?_, hnew _ (merged_mem_introduced hr)⟩
    rcases h'.anchors r hr with hin | hle
    · exact ((h.node _).mp hin).2 hgone
    · exact Nat.not_lt_of_le hle (h.given _ hgone)
  refine {
    next_le := Nat.le_trans h.next_le h'.next_le
    names := ?_
    given := ?_
    anchors := ?_
    node := ?_
    term := ?_
    edge := ?_
    steps := ?_
    cover := ?_ }
  · rw [introduced_append, h.names, h'.names, ← Nat.sub_add_sub_cancel h'.next_le h.next_le,
      Nat.add_comm, ← List.range'_append_1, Nat.add_sub_of_le h.next_le]
  · intro id hid
    rcases List.mem_append.mp (removed_append groups more ▸ hid) with hid | hid
    · exact Nat.lt_of_lt_of_le (h.given id hid) h'.next_le
    · exact h'.given id hid
  · intro r hr
    rcases List.mem_append.mp hr with hr | hr
    · exact h.anchors r hr
    · rcases h'.anchors r hr with hin | hle
      · exact ((h.node _).mp hin).1.imp_right h.le_of_introduced
      · exact Or.inr (Nat.le_trans h.next_le hle)
  · intro id
    have hid := hnew id
    simp only [h'.node, h.node, introduced_append, removed_append, List.mem_append]
    tauto
  · intro id c hc hid
    simp only [removed_append, List.mem_append, not_or] at hid
    obtain ⟨c', hc', hterm⟩ := h.term id c hc hid.1
    obtain ⟨c'', hc'', hterm'⟩ := h'.term id c' hc' hid.2
    exact ⟨c'', hc'', hterm'.trans hterm⟩
  · intro l
    have hl : l ∈ more.map (·.link) → l.source ∉ removed groups ∧ l.target ∉ removed groups := by
      intro hl
      obtain ⟨r, hr, rfl⟩ := List.mem_map.mp hl
      exact hlink r hr
    simp only [h'.edge, h.edge, removed_append, List.map_append, List.mem_append]
    clear hnew hlink
    tauto
  · intro l hl hs ht
    simp only [removed_append, List.mem_append, not_or] at hs ht
    have hl' : l ∈ g'.edges := (h.edge l).mpr ⟨Or.inl hl, hs.1, ht.1⟩
    rw [h'.steps l hl' hs.2 ht.2, h.steps l hl hs.1 ht.1]
  · intro l e
    simp only [h'.cover, h.cover, removed_append, List.mem_append]
    tauto

end Graph

/-! ## One plan -/

namespace Graph.Reworked

variable {g g' : Graph} {set : BranchSet} {paths : List MergedPath}

theorem anchor_old_or_new (h : Reworked g g' set paths) {path : MergedPath} (hpath : path ∈ paths) :
    path.group.anchor ∈ g.nodes ∨ g.next ≤ path.group.anchor := by
  rcases h.anchor path hpath with he | hnew
  · exact Or.inl (he ▸ h.sound.split_source _ h.source_splits)
  · exact Or.inr hnew

/-- An anchor that had not been there is one that its group has introduced. -/
theorem anchor_mem_introduced (h : Reworked g g' set paths) {path : MergedPath}
    (hpath : path ∈ paths) (hnew : g.next ≤ path.group.anchor) :
    path.group.anchor ∈ introduced (paths.map (·.group)) := by
  have hne : path.group.anchor ≠ path.group.splitSource := by
    rw [h.source path hpath]
    intro he
    exact h.sound.not_mem_of_le hnew (he ▸ h.sound.split_source _ h.source_splits)
  exact mem_introduced.mpr ⟨_, List.mem_map_of_mem hpath, Group.mem_fresh.mpr (Or.inr ⟨rfl, hne⟩)⟩

theorem mem_nodes_iff (h : Reworked g g' set paths) {id : NodeId} :
    id ∈ g'.nodes ↔
      (id ∈ g.nodes ∨ id ∈ introduced (paths.map (·.group))) ∧ ¬ Absorbed paths id := by
  constructor
  · intro hin
    refine ⟨?_, fun hgone => h.absorbed id hgone hin⟩
    rcases h.node_new id hin with hold | ⟨path, hpath, rfl | rfl⟩
    · exact Or.inl hold
    · exact (h.anchor_old_or_new hpath).imp_right (h.anchor_mem_introduced hpath)
    · exact Or.inr (merged_mem_introduced (List.mem_map_of_mem hpath))
  · rintro ⟨hold | hnew, hno⟩
    · exact (h.mem_nodes hold).mpr hno
    · obtain ⟨r, hr, hid⟩ := mem_introduced.mp hnew
      obtain ⟨path, hpath, rfl⟩ := List.mem_map.mp hr
      rcases Group.mem_fresh.mp hid with rfl | ⟨rfl, -⟩
      · exact (h.ends path hpath).2
      · exact (h.ends path hpath).1

/-- An edge that touches no branch that is gone leads along the chain it had. -/
theorem edge_kept (h : Reworked g g' set paths) {l : Link} (hl : l ∈ g.edges)
    (hs : ¬ Absorbed paths l.source) (ht : ¬ Absorbed paths l.target) :
    g'.edges.get? l = g.edges.get? l := by
  obtain ⟨steps, hsteps⟩ := Table.mem_iff.mp hl
  rw [hsteps]
  exact (h.edge l steps).mpr (Or.inl ⟨hs, ht, hsteps⟩)

theorem mem_edges_iff (h : Reworked g g' set paths) {l : Link} :
    l ∈ g'.edges ↔ (l ∈ g.edges ∨ l ∈ (paths.map (·.group)).map (·.link)) ∧
      ¬ Absorbed paths l.source ∧ ¬ Absorbed paths l.target := by
  have hlinks : l ∈ (paths.map (·.group)).map (·.link) ↔ ∃ path ∈ paths, path.link = l := by
    rw [List.map_map, List.mem_map]
    rfl
  rw [hlinks]
  constructor
  · intro hl
    obtain ⟨steps, hsteps⟩ := Table.mem_iff.mp hl
    rcases (h.edge l steps).mp hsteps with ⟨hs, ht, hold⟩ | ⟨path, hpath, rfl, -⟩
    · exact ⟨Or.inl (Table.mem_of_get? hold), hs, ht⟩
    · exact ⟨Or.inr ⟨path, hpath, rfl⟩, fun hgone => h.absorbed _ hgone (h.ends path hpath).1,
        fun hgone => h.absorbed _ hgone (h.ends path hpath).2⟩
  · rintro ⟨hold | ⟨path, hpath, rfl⟩, hs, ht⟩
    · obtain ⟨steps, hsteps⟩ := Table.mem_iff.mp hold
      exact Table.mem_of_get? ((h.edge_kept hold hs ht).trans hsteps)
    · exact Table.mem_of_get? ((h.edge _ _).mpr (Or.inr ⟨path, hpath, rfl, rfl⟩))

end Graph.Reworked

namespace Merging

variable {σ : Type} {oracle : Oracle σ} {p : Plan} {groups : List Group} {g g' : Graph}

/-- A plan is accounted for by its groups, given the names it has given out. -/
theorem Carried.accounted (h : Carried p groups g g') (hle : g.next ≤ g'.next)
    (hnames : introduced groups = List.range' g.next (g'.next - g.next)) :
    g.Accounted g' groups := by
  obtain ⟨paths, h, rfl, -⟩ := h
  refine {
    next_le := hle
    names := hnames
    given := ?_
    anchors := ?_
    node := fun id => by rw [mem_removed_paths, h.mem_nodes_iff]
    term := ?_
    edge := fun l => by rw [mem_removed_paths, mem_removed_paths, h.mem_edges_iff]
    steps := ?_
    cover := ?_ }
  · intro id hid
    have hold := h.mem_nodes_of_absorbed (mem_removed_paths.mp hid)
    exact Nat.lt_of_lt_of_le (h.sound.in_range id hold).2 hle
  · intro r hr
    obtain ⟨path, hpath, rfl⟩ := List.mem_map.mp hr
    exact h.anchor_old_or_new hpath
  · intro id c hc hno
    rw [mem_removed_paths] at hno
    exact ⟨c, (h.node id (Table.mem_of_get? hc) hno).trans hc, rfl⟩
  · intro l hl hs ht
    rw [mem_removed_paths] at hs ht
    exact h.edge_kept hl hs ht
  · intro l e
    rw [h.cover, mem_removed_paths, mem_removed_paths, ← and_assoc, and_comm]

/-- The source of a plan's split had been there. -/
theorem Carried.source_lt (h : Carried p groups g g') {r : Group} (hr : r ∈ groups) :
    r.splitSource < g.next := by
  obtain ⟨paths, h, rfl, -⟩ := h
  obtain ⟨cases, hq⟩ := h.qualified
  obtain ⟨path, hpath, rfl⟩ := List.mem_map.mp hr
  rw [h.source path hpath]
  exact (h.sound.in_range _ (h.sound.split_source _ hq.source_mem_splits)).2

/-- The groups of a plan tell all names that it gives out. -/
theorem carryOut_introduced {s s' : Session σ} (hcarried : Carried p groups s.graph s'.graph)
    (hrun : EStateM.run (carryOut oracle p) s = .ok groups s') :
    ∃ n, s'.graph.next = s.graph.next + n ∧ introduced groups = List.range' s.graph.next n := by
  obtain ⟨n, hn, hnames⟩ := names_carryOut oracle p s groups s' hrun
  refine ⟨n, hn, ?_⟩
  rcases hnames with ⟨r, rfl, hns, hanchor⟩ | hns
  · simp [introduced, Group.fresh, hanchor, hns]
  · -- an anchor just given out is not the source, which had been there
    have hfresh : ∀ r ∈ groups, r.fresh = [r.anchor, r.merged] := by
      intro r hr
      have hanchor : r.anchor ∈ List.range' s.graph.next n :=
        hns ▸ List.mem_flatMap.mpr ⟨r, hr, List.mem_cons_self⟩
      have hlt : r.splitSource < r.anchor :=
        Nat.lt_of_lt_of_le (hcarried.source_lt hr) (List.mem_range'_1.mp hanchor).1
      exact if_neg (Nat.ne_of_gt hlt)
    rw [hns]
    exact List.flatMap_congr hfresh

/-- A plan that is carried out is accounted for by its groups. -/
theorem carryOut_accounted {s s' : Session σ} (h : s.graph.Sound) (hp : p.Fits)
    (hne : p.cliques ≠ []) (hcurrent : s.graph.branchSet? p.set.source = some p.set)
    (hrun : EStateM.run (carryOut oracle p) s = .ok groups s') :
    s.graph.Accounted s'.graph groups := by
  have hcarried := carried_of_run h hp hne hcurrent hrun
  obtain ⟨n, hn, hnames⟩ := carryOut_introduced hcarried hrun
  refine hcarried.accounted (hn ▸ Nat.le_add_right _ _) ?_
  rw [hnames, hn, Nat.add_sub_cancel_left]

/-! ## One round after another -/

theorem carryOut_all_accounted {s s' : Session σ} {plans : List Plan} {all : List (List Group)}
    (h : s.graph.Sound) (hfits : ∀ p ∈ plans, p.Fits ∧ p.cliques ≠ [])
    (hrun : EStateM.run (plans.mapM (carryOutIfCurrent oracle)) s = .ok all s') :
    s.graph.Accounted s'.graph all.flatten := by
  induction plans generalizing s all with
  | nil =>
    cases hrun
    exact .refl _
  | cons p plans ih =>
    obtain ⟨hp, hne⟩ := hfits p List.mem_cons_self
    obtain ⟨groups, s₁, more, hfirst, hrest, rfl⟩ := carryOut_cons_ok hrun
    have hkeeps := carryOutIfCurrent_keeps oracle h hp hne
    rw [hfirst] at hkeeps
    have hrest := ih hkeeps.sound (fun q hq => hfits q (List.mem_cons_of_mem _ hq)) hrest
    rw [List.flatten_cons]
    rcases carryOutIfCurrent_ok hfirst with ⟨-, rfl, rfl⟩ | ⟨hcurrent, hcarried⟩
    · exact hrest
    · exact (carryOut_accounted h hp hne hcurrent hcarried).trans hrest

/-- What a round has done is told by the groups it reports. Without any it has done
nothing. -/
theorem round_accounted {s s' : Session σ} {report report' : Report} {more : Bool}
    (h : s.graph.Sound) (hrun : EStateM.run (round oracle report) s = .ok (report', more) s') :
    ∃ groups, report'.groups = report.groups ++ groups ∧ s.graph.Accounted s'.graph groups ∧
      (groups = [] → s'.graph = s.graph) := by
  have hquiet := discover_all oracle s.graph.branchSets
  cases more with
  | false =>
    obtain ⟨found, hfound, -, rfl⟩ := round_stops h hrun
    have hgraph := (hquiet.ok hfound).1
    refine ⟨[], (List.append_nil _).symm, ?_, fun _ => hgraph⟩
    rw [hgraph]
    exact .refl _
  | true =>
    have hends := round_ends oracle report s
    rw [hrun] at hends
    generalize hmore : true = more at hends
    cases hends with
    | idle => cases hmore
    | @done found s₁ s₂ s₃ groups n hfound hcarried hsettled =>
      obtain ⟨hgraph, hfits⟩ := hquiet.ok hfound
      have hfits : ∀ p ∈ plansOf found, p.Fits ∧ p.cliques ≠ [] := fun p hp => (hfits p hp).2
      have hkeeps := carryOut_all oracle (hgraph ▸ h) hfits
      rw [hcarried] at hkeeps
      have hplans := carryOut_all_accounted (hgraph ▸ h) hfits hcarried
      obtain ⟨g', hg', rfl⟩ := propagate_ok hkeeps.sound hsettled
      refine ⟨groups.flatten, rfl, ?_, fun hnone => ?_⟩
      · rw [← hgraph, ← List.append_nil groups.flatten]
        exact hplans.trans (hg'.toReconfigured.accounted hg'.terms)
      · rw [hnone] at hmore
        cases hmore

theorem rounds_accounted {s s' : Session σ} {limit : Nat} {report report' : Report}
    (h : s.graph.Sound) (hrun : EStateM.run (rounds oracle limit report) s = .ok report' s') :
    ∃ groups, report'.groups = report.groups ++ groups ∧ s.graph.Accounted s'.graph groups ∧
      (groups = [] → s'.graph = s.graph) := by
  induction limit generalizing s report with
  | zero =>
    cases hrun
    exact ⟨[], (List.append_nil _).symm, .refl _, fun _ => rfl⟩
  | succ limit ih =>
    have hkeeps := round_keeps oracle report h
    rw [rounds_succ] at hrun
    cases hround : EStateM.run (round oracle report) s with
    | error e s₁ =>
      rw [hround] at hrun
      cases hrun
    | ok result s₁ =>
      obtain ⟨report₁, more⟩ := result
      obtain ⟨groups, hgroups, haccounted, hnone⟩ := round_accounted h hround
      rw [hround] at hrun hkeeps
      cases more with
      | false =>
        cases hrun
        exact ⟨groups, hgroups, haccounted, hnone⟩
      | true =>
        have hs₁ : s₁.graph.Sound := hkeeps.sound
        obtain ⟨later, hlater, haccounted', hnone'⟩ := ih hs₁ hrun
        refine ⟨groups ++ later, ?_, haccounted.trans haccounted', fun hempty => ?_⟩
        · rw [hlater, hgroups, List.append_assoc]
        · obtain ⟨hfirst, hrest⟩ := List.append_eq_nil_iff.mp hempty
          rw [hnone' hrest, hnone hfirst]

end Merging

open Merging

/-- The report of a merging session accounts for all that it has done. Each name given
out is the end or the anchor of one group, and the nodes are those before and these,
without the members of groups. With the members go the edges and covers that touch them;
all others stay as they were, and each group adds its own edge. A report without groups
says that nothing has changed. -/
theorem Reachable.merging_accounted {g : Graph} (h : Reachable g) {σ : Type} (oracle : Oracle σ)
    (memory : σ) (limit : Nat) {report : Report} {s' : Session σ}
    (hrun : EStateM.run (Merging.run oracle limit) { graph := g, memory := memory } =
      .ok report s') :
    g.Accounted s'.graph report.groups ∧
      ((report.groups.map (·.link)).Nodup ∧ ∀ r ∈ report.groups, r.link ∉ g.edges) ∧
      (report.groups = [] → s'.graph = g) := by
  obtain ⟨groups, hgroups, haccounted, hnone⟩ := rounds_accounted h.sound hrun
  obtain rfl : report.groups = groups := hgroups
  refine ⟨haccounted, ⟨haccounted.links_nodup, fun r hr hl => ?_⟩, hnone⟩
  have hlt := (h.sound.in_range _ (h.sound.edge_ends _ hl).2).2
  exact Nat.not_le_of_lt hlt (haccounted.le_of_introduced (merged_mem_introduced hr))

theorem merging_accounted_fork :
    let g := Graph.empty.afterAll fork
    (∃ report s', EStateM.run (Merging.run .sameTerm 64) { graph := g, memory := () } =
        .ok report s' ∧ report.groups ≠ [] ∧ g.Accounted s'.graph report.groups) ∧
      ∃ report s', EStateM.run (Merging.run .never 64) { graph := g, memory := () } =
        .ok report s' ∧ report.groups = [] ∧ s'.graph = g := by
  intro g
  obtain ⟨report, s', hrun, hgroups⟩ := exists_ok_of_endsWith
    (p := fun report : Report => !report.groups.isEmpty)
    (r := EStateM.run (Merging.run .sameTerm 64) { graph := g, memory := () }) (by decide +kernel)
  obtain ⟨report', s'', hrun', hnone⟩ := exists_ok_of_endsWith
    (p := fun report : Report => report.groups.isEmpty)
    (r := EStateM.run (Merging.run .never 64) { graph := g, memory := () }) (by decide +kernel)
  have hnone : report'.groups = [] := by simpa using hnone
  exact ⟨⟨report, s', hrun, by simpa using hgroups,
      (reachable_fork.merging_accounted .sameTerm () 64 hrun).1⟩,
    report', s'', hrun', hnone, (reachable_fork.merging_accounted .never () 64 hrun').2.2 hnone⟩

end StateGraph
