-- The two ends of a merged path. They begin with one configuration, but only what splits
-- branch to is brought up to date. So the end of a path keeps what its start held at first.
-- The start goes along with the source of its split.
import StateGraph.Proofs.CaseCoverage
import StateGraph.Proofs.DeclinedPairs
import StateGraph.Proofs.TreeLike

namespace StateGraph

namespace Graph

variable {g g' : Graph} {set : BranchSet} {paths : List MergedPath} {path : MergedPath}
  {source copy : Config} {r : Group}

/-! ## Copies -/

/-- What the end of a path has been copied from, told by what the source of the split held
then: that itself, or what the split gives to an anchor that nothing else leads to. -/
inductive Origin (g : Graph) (source copy : Config) (r : Group) : Prop
  | source (anchor : r.anchor = r.splitSource) (same : copy = source) : Origin g source copy r
  | anchor {cases : Cases} {guard : Effect} (split : g.splits.get? r.splitSource = some cases)
      (guarded : cases.guards.get? r.anchor = some guard)
      (constraints : copy.constraints =
        source.constraints ++ cases.shared.constraints ++ guard.constraints)
      (alone : ∀ a, BranchesTo g.splits a r.anchor → a = r.splitSource)
      (unentered : ∀ l ∈ g.edges, l.target ≠ r.anchor) : Origin g source copy r

/-- The end of a path holds its copy. Nothing but the path leads there. -/
structure Copied (g : Graph) (source copy : Config) (r : Group) : Prop where
  merged : g.nodes.get? r.merged = some copy
  untargeted : ∀ a, ¬ BranchesTo g.splits a r.merged
  entered : ∀ l ∈ g.edges, l.target = r.merged → l.source = r.anchor
  origin : Origin g source copy r

/-- The end of a path holds its copy for as long as the path is there. -/
structure Tracks (g : Graph) (source copy : Config) (r : Group) : Prop where
  anchor : g.Recalls r.anchor copy.term
  merged_lt : r.merged < g.next
  copied : (⟨r.anchor, r.merged⟩ : Link) ∈ g.edges → Copied g source copy r

theorem Tracks.settles (h : Tracks g source copy r) (hs : Settles g g') :
    Tracks g' source copy r where
  anchor := hs.keepsTerms _ _ h.anchor
  merged_lt := hs.next_eq ▸ h.merged_lt
  copied := by
    rw [hs.edges_eq]
    intro hlink
    obtain ⟨hmerged, huntargeted, hentered, horigin⟩ := h.copied hlink
    refine ⟨(hs.untargeted _ huntargeted).trans hmerged, hs.splits_eq ▸ huntargeted,
      hs.edges_eq ▸ hentered, ?_⟩
    cases horigin with
    | source hanchor hsame => exact .source hanchor hsame
    | anchor hsplit hguard hconstraints halone hunentered =>
      exact .anchor (hs.splits_eq ▸ hsplit) hguard hconstraints (hs.splits_eq ▸ halone)
        (hs.edges_eq ▸ hunentered)

/-- Where path conditions are in step, what the start of a path holds and what its end holds
differ only in what the source of the split holds and held. -/
theorem Copied.exists_assumed (h : Copied g source copy r) (hstep : g.InStep) {anchor : Config}
    (hanchor : g.nodes.get? r.anchor = some anchor) :
    ∃ held assumed, g.nodes.get? r.splitSource = some held ∧
      anchor.constraints = held.constraints ++ assumed ∧
      copy.constraints = source.constraints ++ assumed := by
  cases h.origin with
  | source hsame hcopy =>
    exact ⟨anchor, [], hsame ▸ hanchor, (List.append_nil _).symm,
      hcopy ▸ (List.append_nil _).symm⟩
  | @anchor cases guard hsplit hguard hconstraints halone =>
    have hbranch : BranchesTo g.splits r.splitSource r.anchor :=
      ⟨cases, hsplit, Table.mem_of_get? hguard⟩
    have howners : g.splitSourcesOf r.anchor = [r.splitSource] :=
      Reworked.splitSourcesOf_eq fun a => ⟨halone a, fun he => he ▸ hbranch⟩
    have hgoverns : Governs g.splits r.splitSource r.anchor := by
      rw [← governorOf_eq_some, governorOf, howners]
      rfl
    obtain ⟨held, target, cases', guard', hheld, htarget, hcases, hguard', he⟩ := hstep _ _ hgoverns
    obtain rfl := Option.some.inj (hanchor.symm.trans htarget)
    obtain rfl := Option.some.inj (hsplit.symm.trans hcases)
    obtain rfl := Option.some.inj (hguard.symm.trans hguard')
    exact ⟨held, cases.shared.constraints ++ guard.constraints, hheld,
      he.trans (List.append_assoc ..), hconstraints.trans (List.append_assoc ..)⟩

/-! ## Copies while splits are reworked -/

namespace Reworked

/-- Edges to old nodes are old. -/
theorem edge_to_old (h : Reworked g g' set paths) {l : Link} (hl : l ∈ g'.edges)
    (hlt : l.target < g.next) : ¬ Absorbed paths l.source ∧ ¬ Absorbed paths l.target ∧
      l ∈ g.edges := by
  refine (h.mem_edges.mp hl).resolve_right ?_
  rintro ⟨p, hp, rfl⟩
  exact Nat.not_le.mpr hlt (h.merged_new p hp)

/-- A split branches to a node that no branch led to only if it did before. -/
theorem branchesTo_before (h : Reworked g g' set paths) {a b : NodeId} (hb : b ∈ g.nodes)
    (hno : ∀ l ∈ g.edges, l.target = b → ¬ Absorbed paths l.source)
    (hab : BranchesTo g'.splits a b) : BranchesTo g.splits a b := by
  refine (h.branchesTo_old hb hab).resolve_right ?_
  rintro ⟨p, hp, br, hbr, htarget⟩
  exact hno _ (Table.mem_of_get? (h.edge_of_branch hp hbr)) htarget (h.absorbed_node hp hbr)

end Reworked

end Graph

namespace Merging

open StateGraph.Graph (Origin Copied Tracks)

variable {σ : Type} {oracle : Oracle σ} {g g' : Graph} {p : Plan} {groups : List Group}
  {paths : List MergedPath} {config source copy : Config} {r : Group} {cases : Cases}

/-- A plan leaves its source a split, unless it takes in all branches. -/
theorem Constructs.part (h : Constructs oracle p groups g g' paths config)
    (hs : p.set.source ∈ g'.splits) : p.coversSplit = false := by
  obtain ⟨path, hpath⟩ := List.exists_mem_of_ne_nil _ h.reworked.nonempty
  obtain ⟨c, hstarts, -⟩ := h.built path hpath
  cases hstarts with
  | source hwhole hanchor =>
    exact absurd hanchor (h.reworked.sound'.no_edge _ hs _ (h.reworked.link_mem hpath))
  | fresh hpart => exact hpart

/-- A branch that a plan does not take in keeps its guard. -/
theorem Constructs.guard_kept (h : Constructs oracle p groups g g' paths config)
    (hcases : g.splits.get? p.set.source = some cases) {t : NodeId} {guard : Effect}
    (ht : cases.guards.get? t = some guard) (hno : ¬ Absorbed paths t) :
    ∃ left, g'.splits.get? p.set.source = some left ∧ left.shared = cases.shared ∧
      left.guards.get? t = some guard := by
  have hreworked := h.reworked
  have hbranch : BranchesTo g.splits p.set.source t := ⟨cases, hcases, Table.mem_of_get? ht⟩
  obtain ⟨c, hq⟩ := hreworked.qualified
  obtain rfl : cases = c := Option.some.inj (hcases.symm.trans hq.split)
  have hkept : BranchesTo g'.splits p.set.source t := (hreworked.branchesTo _ _).mpr
    (Or.inl ⟨fun habs => hreworked.absorbed_no_split habs hq.source_mem_splits, hno, hbranch⟩)
  obtain ⟨left, hleft, -⟩ := id hkept
  obtain ⟨left, anchors, hresplit⟩ := h.resplit (h.part (Table.mem_of_get? hleft))
  refine ⟨left, hresplit.split, hresplit.shared.trans hq.shared.symm, ?_⟩
  rw [Table.get?_eq_some, hresplit.entries, ← hq.entries]
  refine List.mem_append_left _ (List.mem_filter.mpr ⟨Table.get?_eq_some.mp ht, ?_⟩)
  simpa [Absorbed] using hno

theorem Constructs.origin_kept (h : Constructs oracle p groups g g' paths config)
    (ho : Origin g source copy r) (hno : ¬ Absorbed paths r.anchor) : Origin g' source copy r := by
  have hreworked := h.reworked
  cases ho with
  | source hanchor hsame => exact .source hanchor hsame
  | @anchor cases guard hsplit hguard hconstraints halone hunentered =>
    have hsplits := Table.mem_of_get? hsplit
    have hbranch : BranchesTo g.splits r.splitSource r.anchor :=
      ⟨cases, hsplit, Table.mem_of_get? hguard⟩
    have hin := hreworked.sound.split_target _ _ hbranch
    have halone' : ∀ a, BranchesTo g'.splits a r.anchor → a = r.splitSource := fun a ha =>
      halone a (hreworked.branchesTo_before hin (fun l hl he => absurd he (hunentered l hl)) ha)
    have hunentered' : ∀ l ∈ g'.edges, l.target ≠ r.anchor := fun l hl he =>
      hunentered l (hreworked.edge_to_old hl (he ▸ (hreworked.sound.in_range _ hin).2)).2.2 he
    by_cases hsource : r.splitSource = p.set.source
    · obtain ⟨left, hleft, hshared, hkept⟩ := h.guard_kept (hsource ▸ hsplit) hguard hno
      exact .anchor (hsource ▸ hleft) hkept (hshared ▸ hconstraints) halone' hunentered'
    · have hkept := hreworked.split_kept (hreworked.sound.split_source _ hsplits) hsource
        fun habs => hreworked.absorbed_no_split habs hsplits
      exact .anchor (hkept.trans hsplit) hguard hconstraints halone' hunentered'

/-- Carrying out another plan leaves a copy as it is, or takes its path away. -/
theorem Constructs.tracks (h : Constructs oracle p groups g g' paths config)
    (ht : Tracks g source copy r) : Tracks g' source copy r where
  anchor := h.reworked.keepsTerms _ _ ht.anchor
  merged_lt := Nat.lt_of_lt_of_le ht.merged_lt h.reworked.grows.next_le
  copied := by
    have hreworked := h.reworked
    intro hlink
    obtain ⟨hstart, hend, hlink⟩ := hreworked.edge_to_old hlink ht.merged_lt
    obtain ⟨hmerged, huntargeted, hentered, horigin⟩ := ht.copied hlink
    have hin := Table.mem_of_get? hmerged
    refine ⟨(hreworked.node _ hin hend).trans hmerged, fun a ha => ?_, fun l hl he => ?_,
      h.origin_kept horigin hstart⟩
    · refine huntargeted a (hreworked.branchesTo_before hin (fun l hl he => ?_) ha)
      rwa [hentered l hl he]
    · exact hentered l (hreworked.edge_to_old hl (he ▸ ht.merged_lt)).2.2 he

/-! ## Copies when they are made -/

theorem copied_of_built {set : BranchSet} {path : MergedPath} (h : g.Reworked g' set paths)
    (hpath : path ∈ paths) (hb : g'.Built set copy path)
    (ho : Origin g' source copy path.group) : Copied g' source copy path.group where
  merged := hb.merged
  untargeted := h.merged_untargeted hpath
  entered := by
    intro l hl he
    rcases h.mem_edges.mp hl with ⟨-, -, hl⟩ | ⟨q, hq, rfl⟩
    · exact absurd (he ▸ (h.sound.edge_ends l hl).2) (h.merged_not_mem hpath)
    · rw [h.eq_of_merged_eq hq hpath he]
      rfl
  origin := ho

/-- The anchor of a path is a branch of its split. Nothing else leads to it. -/
theorem Resplit.origin {set : BranchSet} {path : MergedPath}
    {anchors : List (NodeId × Effect)} (hs : Resplit oracle g' set config paths cases anchors)
    (h : g.Reworked g' set paths) (hpath : path ∈ paths) (hnew : g.next ≤ path.group.anchor) :
    ∃ copy, g'.Built set copy path ∧ Origin g' config copy path.group := by
  obtain ⟨e, he, hguarded⟩ := BranchSet.exists_mem_of_forall₂ hs.guarded.flip hpath
  have hguarded : Guarded oracle g' set config path e := hguarded
  have hnode : path.group.anchor ∉ g.nodes := h.sound.not_mem_of_le hnew
  have hguard : cases.guards.get? path.group.anchor = some e.2 := by
    rw [Table.get?_eq_some, hs.entries, ← hguarded.anchor]
    exact List.mem_append_right _ he
  refine ⟨_, hguarded.built, .anchor (h.source path hpath ▸ hs.split) hguard ?_ ?_ ?_⟩
  · rw [hs.shared, List.append_assoc]
    rfl
  · intro a ha
    rcases (h.branchesTo a _).mp ha with ⟨-, -, ha⟩ | ⟨rfl, -⟩ | ⟨q, hq, -, br, hbr, he⟩
    · exact absurd (h.sound.split_target _ _ ha) hnode
    · exact (h.source path hpath).symm
    · exact absurd (he ▸ h.target_mem hq hbr) hnode
  · intro l hl he
    rcases h.mem_edges.mp hl with ⟨-, -, hl⟩ | ⟨q, hq, rfl⟩
    · exact hnode (he ▸ (h.sound.edge_ends l hl).2)
    · exact h.anchor_ne_merged hpath hq he.symm

theorem Constructs.starts (h : Constructs oracle p groups g g' paths config) (hr : r ∈ groups) :
    ∃ copy, g'.nodes.get? r.anchor = some copy ∧ Tracks g' config copy r := by
  have hreworked := h.reworked
  rw [h.groups_eq] at hr
  obtain ⟨path, hpath, rfl⟩ := List.mem_map.mp hr
  obtain ⟨copy, hbuilt, horigin⟩ :
      ∃ copy, g'.Built p.set copy path ∧ Origin g' config copy path.group := by
    obtain ⟨c, hstarts, hbuilt⟩ := h.built path hpath
    cases hstarts with
    | source hwhole hanchor =>
      exact ⟨_, hbuilt, .source (hanchor.trans (hreworked.source path hpath).symm) rfl⟩
    | fresh hpart hnew =>
      obtain ⟨left, anchors, hresplit⟩ := h.resplit hpart
      exact hresplit.origin hreworked hpath hnew
  exact ⟨copy, hbuilt.anchor, {
    anchor := hreworked.sound'.recalls hbuilt.anchor
    merged_lt := (hreworked.sound'.in_range _ (hreworked.ends path hpath).2).2
    copied := fun _ => copied_of_built hreworked hpath hbuilt horigin }⟩

/-! ## A session -/

theorem composes_tracks :
    Composes fun g g' => ∀ source copy r, Tracks g source copy r → Tracks g' source copy r where
  refl := fun _ _ _ _ => id
  settles := fun _ h _ _ _ ht => ht.settles h
  trans := fun h h' source copy r ht => h' source copy r (h source copy r ht)

/-- A copy is tracked from the plan that makes it to the end of the session. -/
theorem CarriedIn.tracks {s s' : Session σ} {limit : Nat} {report report' : Report}
    (hc : CarriedIn oracle p groups g g' limit s) (h : s.graph.Sound) (hr : r ∈ groups)
    (hrun : EStateM.run (rounds oracle limit report) s = .ok report' s') :
    ∃ source copy, g.nodes.get? r.splitSource = some source ∧
      g'.nodes.get? r.anchor = some copy ∧ Tracks s'.graph source copy r := by
  obtain ⟨paths, config, hmade⟩ := hc.constructs h
  obtain ⟨copy, hcopy, htracks⟩ := hmade.starts hr
  have hrest := hc.since composes_tracks h (fun p groups g g' hc => by
    obtain ⟨paths, config, hmade⟩ := hc.constructs h
    exact fun _ _ _ => hmade.tracks) hrun
  exact ⟨config, copy, hmade.splitSource hr ▸ hmade.source, hcopy, hrest _ _ _ htracks⟩

end Merging

open Merging

/-- What the ends of a merged path hold in `g`. When the path was made, from `g₁` to `g₂`, the
source of its split held `was`, and now it holds `held`. -/
structure EndsHold (g₁ g₂ g : Graph) (r : Group) (was held start copy : Config) : Prop where
  source_then : g₁.nodes.get? r.splitSource = some was
  start_then : g₂.nodes.get? r.anchor = some copy
  source_now : g.nodes.get? r.splitSource = some held
  start_now : g.nodes.get? r.anchor = some start
  merged_now : g.nodes.get? r.merged = some copy
  term : start.term = copy.term
  constraints : ∃ assumed, start.constraints = held.constraints ++ assumed ∧
    copy.constraints = was.constraints ++ assumed

theorem EndsHold.eq_iff {g₁ g₂ g : Graph} {r : Group} {was held start copy : Config}
    (h : EndsHold g₁ g₂ g r was held start copy) :
    start = copy ↔ held.constraints = was.constraints := by
  obtain ⟨assumed, hstart, hcopy⟩ := h.constraints
  refine ⟨fun he => ?_, fun he => Config.eq_of_parts h.term ?_⟩
  · rw [he, hcopy] at hstart
    exact (List.append_cancel_right hstart).symm
  · rw [hstart, hcopy, he]

/-- As long as a merged path is there, its end holds what its start held when the path was
made, and the start goes along with the source of its split. Both ends have one term. They
have one path condition exactly if the source has the one that it had. -/
theorem Reachable.merging_copies {g : Graph} (h : Reachable g)
    (hzero : ∃ g', Update.propagate.run g = .ok 0 g') {σ : Type} {oracle : Oracle σ} {memory : σ}
    {limit : Nat} {report : Report} {s' : Session σ}
    (hrun : EStateM.run (Merging.run oracle limit) { graph := g, memory := memory } =
      .ok report s') :
    ∀ r ∈ report.groups, (⟨r.anchor, r.merged⟩ : Link) ∈ s'.graph.edges →
      ∃ p groups g₁ g₂ was held start copy,
        CarriedIn oracle p groups g₁ g₂ limit { graph := g, memory := memory } ∧ r ∈ groups ∧
        EndsHold g₁ g₂ s'.graph r was held start copy ∧
        (start = copy ↔ held.constraints = was.constraints) := by
  intro r hr hlink
  let s : Session σ := { graph := g, memory := memory }
  have hstep : g.InStep := (Update.propagate_zero_iff h.sound).mp hzero
  have hstep' : s'.graph.InStep := rounds_inStep (s := s) h.sound hstep hrun
  have hkeeps := rounds_keeps oracle limit {} (s := s) h.sound
  rw [← Merging.run, hrun] at hkeeps
  obtain ⟨p, groups, g₁, g₂, hc, hr⟩ := (exists_carriedIn hrun hr).resolve_left List.not_mem_nil
  obtain ⟨was, copy, hwas, hcopy, htracks⟩ := hc.tracks h.sound hr hrun
  have hcopied := htracks.copied hlink
  obtain ⟨start, hstart⟩ := Table.mem_iff.mp (hkeeps.sound.edge_ends _ hlink).1
  obtain ⟨held, assumed, hheld, hstarts, hcopies⟩ := hcopied.exists_assumed hstep' hstart
  have hends : EndsHold g₁ g₂ s'.graph r was held start copy :=
    ⟨hwas, hcopy, hheld, hstart, hcopied.merged, htracks.anchor.term _ hstart,
      assumed, hstarts, hcopies⟩
  exact ⟨p, groups, g₁, g₂, was, held, start, copy, hc, hr, hends, hends.eq_iff⟩

theorem merging_copies_overlap :
    let g := Graph.empty.afterAll overlap
    let s : Session Unit := { graph := g, memory := () }
    let r : Group := ⟨1, [2, 3], 7, 8, [5, 6]⟩
    Reachable g ∧ (∃ g', Update.propagate.run g = .ok 0 g') ∧
      ∃ report s' p groups g₁ g₂ was held start copy,
        EStateM.run (Merging.run { mergeable := apartXZ } 1) s = .ok report s' ∧
        r ∈ report.groups ∧ (⟨r.anchor, r.merged⟩ : Link) ∈ s'.graph.edges ∧
        CarriedIn { mergeable := apartXZ } p groups g₁ g₂ 1 s ∧ r ∈ groups ∧
        EndsHold g₁ g₂ s'.graph r was held start copy ∧
        (start = copy ↔ held.constraints = was.constraints) := by
  intro g s r
  let run := EStateM.run (Merging.run { mergeable := apartXZ } 1) s
  obtain ⟨report, s', hrun, hr, -⟩ := run_overlap
  have hlink : (⟨r.anchor, r.merged⟩ : Link) ∈ (stateOf run).graph.edges := by decide +kernel
  have hleft : stateOf run = s' := congrArg stateOf hrun
  rw [hleft] at hlink
  obtain ⟨p, groups, g₁, g₂, was, held, start, copy, hmade⟩ :=
    reachable_overlap.merging_copies settled_overlap hrun r hr hlink
  exact ⟨reachable_overlap, settled_overlap, report, s', p, groups, g₁, g₂, was, held, start, copy,
    hrun, hr, hlink, hmade⟩

/-- A split above brings the start of a path a condition of which the end does not hear. -/
theorem merging_outdates_copy_cascade :
    let g := Graph.empty.afterAll cascade
    Reachable g ∧ (∃ g', Update.propagate.run g = .ok 0 g') ∧ ∃ report s' r start copy,
      EStateM.run (Merging.run .always 64) { graph := g, memory := () } = .ok report s' ∧
      r ∈ report.groups ∧ (⟨r.anchor, r.merged⟩ : Link) ∈ s'.graph.edges ∧
      s'.graph.nodes.get? r.anchor = some start ∧ s'.graph.nodes.get? r.merged = some copy ∧
      start ≠ copy := by
  intro g
  let run := EStateM.run (Merging.run .always 64) { graph := g, memory := () }
  let r : Group := ⟨4, [5, 6], 4, 10, [7, 8]⟩
  let start : Config := { term := .var "X", constraints := [.var "P"] }
  let copy : Config := { term := .var "X" }
  obtain ⟨report, s', hrun, hgroups⟩ := exists_ok_of_endsWith (r := run)
    (p := fun report : Report => report.groups.contains r) (by decide +kernel)
  have hends : (⟨r.anchor, r.merged⟩ : Link) ∈ (stateOf run).graph.edges ∧
      (stateOf run).graph.nodes.get? r.anchor = some start ∧
      (stateOf run).graph.nodes.get? r.merged = some copy := by decide +kernel
  rw [hrun] at hends
  exact ⟨reachable_cascade, exists_settled (by decide +kernel), report, s', r, start, copy, hrun,
    List.contains_iff_mem.mp hgroups, hends.1, hends.2.1, hends.2.2, by decide⟩

end StateGraph
