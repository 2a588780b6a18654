-- What merging makes of one split. Once its members are gone and the merged
-- paths stand, nothing is left that could forbid the split of what remains.
import StateGraph.Proofs.MergedPaths

namespace StateGraph

open Relation (ReflTransGen TransGen)

/-- Branches of a split with their nodes, at least one. -/
structure MembersOf (set : BranchSet) (members : List NodeId) (bs : List Branch) : Prop where
  nodes : bs.map (·.node) = members
  mem : ∀ b ∈ bs, b ∈ set.branches
  nonempty : bs ≠ []

namespace MembersOf

variable {g : Graph} {set : BranchSet} {cases : Cases} {members : List NodeId} {bs : List Branch}

theorem exists_branch (h : MembersOf set members bs) {m : NodeId} (hm : m ∈ members) :
    ∃ b ∈ set.branches, b.node = m := by
  rw [← h.nodes] at hm
  obtain ⟨b, hb, rfl⟩ := List.mem_map.mp hm
  exact ⟨b, h.mem b hb, rfl⟩

theorem mem_nodes (h : MembersOf set members bs) (hq : Qualified g set cases) (hg : g.Sound)
    {m : NodeId} (hm : m ∈ members) : m ∈ g.nodes ∧ m ≠ set.source := by
  obtain ⟨b, hb, rfl⟩ := h.exists_branch hm
  exact ⟨hg.split_target _ _ (hq.branchesTo hb), hq.node_ne_source hg hb⟩

theorem target_not_mem (h : MembersOf set members bs) (hq : Qualified g set cases) {b : Branch}
    (hb : b ∈ bs) : b.target ∉ members := by
  intro hm
  obtain ⟨b', hb', he⟩ := h.exists_branch hm
  exact hq.target_ne_node (h.mem b hb) hb' he.symm

end MembersOf

namespace BranchSet

variable {g : Graph} {set : BranchSet} {cases : Cases} {members : List NodeId} {bs : List Branch}

/-! ## All branches at once -/

/-- Without its branches a source has no split, and the merged path can start
there. -/
theorem pathFits_whole (h : g.Sound) (hq : Qualified g set cases) (hbs : MembersOf set members bs)
    (hall : ∀ b ∈ set.branches, b.node ∈ members) :
    (g.withoutAll members).PathFits set.source bs where
  start_mem := Graph.mem_nodes_withoutAll.mpr
    ⟨fun hm => (hbs.mem_nodes hq h hm).2 rfl, h.split_source _ hq.source_mem_splits⟩
  no_split := by
    refine Graph.not_mem_splits_withoutAll h fun t ht => ?_
    obtain ⟨b, hb, rfl⟩ := hq.exists_branch ht
    exact hall b hb
  branches := hbs.nonempty
  target_mem := fun b hb => Graph.mem_nodes_withoutAll.mpr
    ⟨hbs.target_not_mem hq hb, hq.target_mem_nodes h (hbs.mem b hb)⟩

/-- The group that all branches become in a graph. -/
def wholeGroup (set : BranchSet) (g : Graph) (members : List NodeId) (bs : List Branch) :
    Group where
  splitSource := set.source
  members := members
  anchor := set.source
  merged := g.next
  targets := (targets bs).keys

theorem mergeWhole_run (h : g.Sound) (hq : Qualified g set cases) (hbs : MembersOf set members bs)
    (hnd : members.Nodup) (hall : ∀ b ∈ set.branches, b.node ∈ members) (config : Config) :
    (set.mergeWhole members bs config).run g = .ok (set.wholeGroup g members bs)
      ((g.withoutAll members).withPath set set.source config bs) := by
  have hdetach := Update.detachAll_run hnd fun m hm => (hbs.mem_nodes hq h hm).1
  have hpath := addPath_run (h.withoutAll members) (pathFits_whole h hq hbs hall) set config
  rw [Graph.next_withoutAll] at hpath
  simp only [mergeWhole, EStateM.run_bind, hdetach, hpath]
  rfl

/-! ## Some branches behind anchors -/

/-- The branches that a split has left. -/
def guardsLeft (splits : Table NodeId Cases) (source : NodeId) : Table NodeId Effect :=
  ((splits.get? source).map Cases.guards).getD ∅

theorem mem_guardsLeft {splits : Table NodeId Cases} {a b : NodeId} :
    b ∈ guardsLeft splits a ↔ BranchesTo splits a b := by
  unfold guardsLeft BranchesTo
  cases splits.get? a <;> simp

theorem guardsLeft_without {g : Graph} {source id : NodeId} (hne : source ≠ id) :
    guardsLeft (g.without id).splits source = (guardsLeft g.splits source).erase id := by
  have hget : (g.without id).splits.get? source =
      ((g.splits.get? source).map fun c => { c with guards := c.guards.erase id }).filter
        fun c => !c.guards.isEmpty := by
    unfold Graph.without Graph.splitsWithout
    rw [Table.get?_filter, Table.get?_mapValues, Table.get?_erase_of_ne hne]
  unfold guardsLeft
  rw [hget]
  cases g.splits.get? source with
  | none => exact (Table.erase_of_not_mem (Table.not_mem_empty id)).symm
  | some c =>
    rw [Option.map_some, Option.filter_some]
    cases hempty : (c.guards.erase id).isEmpty with
    | false => rfl
    -- a split without branches goes, and has no branch left either
    | true => exact (Table.eq_of_toList_eq (List.isEmpty_iff.mp hempty)).symm

/-- A split loses the branches that go, and no others. -/
theorem toList_guardsLeft_withoutAll {g : Graph} {source : NodeId} {ids : List NodeId}
    (hs : source ∉ ids) : (guardsLeft (g.withoutAll ids).splits source).toList =
      (guardsLeft g.splits source).toList.filter fun e => !ids.contains e.1 := by
  induction ids generalizing g with
  | nil => simp [Graph.withoutAll]
  | cons id ids ih =>
    obtain ⟨hne, hs⟩ := not_or.mp (List.mem_cons.not.mp hs)
    rw [Graph.withoutAll_cons, ih hs, guardsLeft_without hne, Table.erase, Table.filter,
      List.filter_filter]
    refine List.filter_congr fun e _ => Bool.eq_iff_iff.mpr ?_
    simp [eq_comm (a := id), and_comm]

/-- The branches of a split once some nodes are gone and anchors are there. -/
def regrouped (set : BranchSet) (g : Graph) (anchors : List (NodeId × Effect)) : Cases where
  shared := set.shared
  guards := (guardsLeft g.splits set.source).insertAll anchors

/-- The nodes of all branches that are merged. -/
def merged (groups : List Group) : List NodeId :=
  (SortedSet.ofList (groups.flatMap (·.members))).keys

theorem mem_merged {groups : List Group} {id : NodeId} :
    id ∈ merged groups ↔ ∃ r ∈ groups, id ∈ r.members := by
  rw [merged, Table.mem_keys, SortedSet.mem_ofList, List.mem_flatMap]

end BranchSet

/-- A split in `g`, and the graph `g'` in which its merged paths stand behind
anchors. The merged branches are about to go. -/
structure Regrouping (g g' : Graph) (set : BranchSet) (cases : Cases) (paths : List MergedPath)
    (anchors : List (NodeId × Effect)) : Prop where
  sound : g.Sound
  qualified : Qualified g set cases
  sound' : g'.Sound
  laid : g.Laid g' set paths
  members : ∀ p ∈ paths, MembersOf set p.group.members p.branches
  nonempty : paths ≠ []
  anchored : ∀ p ∈ paths, BranchSet.Anchored g set p
  anchors_eq : anchors.map (·.1) = paths.map (·.group.anchor)

namespace Regrouping

variable {g g' : Graph} {set : BranchSet} {cases : Cases} {paths : List MergedPath}
  {anchors : List (NodeId × Effect)}

/-- The nodes about to go. -/
abbrev ids (paths : List MergedPath) : List NodeId := BranchSet.merged (paths.map (·.group))

theorem mem_ids {id : NodeId} : id ∈ ids paths ↔ ∃ p ∈ paths, id ∈ p.group.members := by
  simp [BranchSet.mem_merged]

theorem mem_anchors (h : Regrouping g g' set cases paths anchors) {t : NodeId} :
    t ∈ anchors.map (·.1) ↔ ∃ p ∈ paths, p.group.anchor = t := by
  rw [h.anchors_eq, List.mem_map]

theorem source_mem (h : Regrouping g g' set cases paths anchors) : set.source ∈ g.nodes :=
  h.sound.split_source _ h.qualified.source_mem_splits

theorem old (h : Regrouping g g' set cases paths anchors) {id : NodeId} (hid : id ∈ ids paths) :
    id ∈ g.nodes ∧ id ≠ set.source := by
  obtain ⟨p, hp, hid⟩ := mem_ids.mp hid
  exact (h.members p hp).mem_nodes h.qualified h.sound hid

theorem anchor_not_mem (h : Regrouping g g' set cases paths anchors) {p : MergedPath}
    (hp : p ∈ paths) : p.group.anchor ∉ g.nodes :=
  h.sound.not_mem_of_le (h.anchored p hp).anchor_new

/-- What is new stays. -/
theorem new_not_mem_ids (h : Regrouping g g' set cases paths anchors) {id : NodeId}
    (hle : g.next ≤ id) : id ∉ ids paths := fun hid => h.sound.not_mem_of_le hle (h.old hid).1

theorem anchor_not_mem_ids (h : Regrouping g g' set cases paths anchors) {p : MergedPath}
    (hp : p ∈ paths) : p.group.anchor ∉ ids paths := h.new_not_mem_ids (h.anchored p hp).anchor_new

theorem merged_not_mem_ids (h : Regrouping g g' set cases paths anchors) {p : MergedPath}
    (hp : p ∈ paths) : p.group.merged ∉ ids paths := h.new_not_mem_ids (h.laid.merged_new p hp)

theorem target_not_mem_ids (h : Regrouping g g' set cases paths anchors) {p : MergedPath}
    (hp : p ∈ paths) {br : Branch} (hbr : br ∈ p.branches) : br.target ∉ ids paths := by
  intro hid
  obtain ⟨q, hq, hid⟩ := mem_ids.mp hid
  obtain ⟨b, hb, he⟩ := (h.members q hq).exists_branch hid
  exact h.qualified.target_ne_node ((h.members p hp).mem br hbr) hb he.symm

theorem left (h : Regrouping g g' set cases paths anchors) : (g'.withoutAll (ids paths)).Sound :=
  h.sound'.withoutAll _

/-- A branch is left from before, or is an anchor. -/
theorem mem_guards (h : Regrouping g g' set cases paths anchors) {t : NodeId} :
    t ∈ (set.regrouped (g'.withoutAll (ids paths)) anchors).guards ↔
      BranchesTo (g'.withoutAll (ids paths)).splits set.source t ∨
        ∃ p ∈ paths, p.group.anchor = t := by
  rw [← h.mem_anchors, ← BranchSet.mem_guardsLeft]
  exact Table.mem_insertAll

theorem branch_mem (h : Regrouping g g' set cases paths anchors) {t : NodeId}
    (ht : t ∈ (set.regrouped (g'.withoutAll (ids paths)) anchors).guards) :
    t ∈ (g'.withoutAll (ids paths)).nodes := by
  rcases h.mem_guards.mp ht with ht | ⟨p, hp, rfl⟩
  · exact h.left.split_target _ t ht
  · exact Graph.mem_nodes_withoutAll.mpr
      ⟨fun hid => h.anchor_not_mem hp (h.old hid).1, (h.laid.ends p hp).1⟩

theorem not_self (h : Regrouping g g' set cases paths anchors) :
    set.source ∉ (set.regrouped (g'.withoutAll (ids paths)) anchors).guards := by
  intro ht
  rcases h.mem_guards.mp ht with ht | ⟨p, hp, he⟩
  · exact h.left.acyclic _ (.single ht)
  · exact h.anchor_not_mem hp (he ▸ h.source_mem)

/-- An edge leaves an anchor, so no split does. -/
theorem anchor_leads_nowhere (h : Regrouping g g' set cases paths anchors) {p : MergedPath}
    (hp : p ∈ paths) (b : NodeId) :
    ¬ BranchesTo (g'.withoutAll (ids paths)).splits p.group.anchor b := by
  intro htb
  obtain ⟨-, -, c, hc, -⟩ := Graph.branchesTo_withoutAll.mp htb
  exact h.sound'.no_edge _ (Table.mem_of_get? hc) p.link
    (h.laid.mem_edges.mpr (Or.inr ⟨p, hp, rfl⟩)) rfl

theorem no_way_back (h : Regrouping g g' set cases paths anchors) {t : NodeId}
    (ht : t ∈ (set.regrouped (g'.withoutAll (ids paths)) anchors).guards) :
    ¬ ReflTransGen (BranchesTo (g'.withoutAll (ids paths)).splits) t set.source := by
  intro hback
  -- from a branch that is left, the way back was a cycle before
  rcases h.mem_guards.mp ht with hbranch | ⟨p, hp, rfl⟩
  · exact h.left.acyclic _ (.head' hbranch hback)
  · rcases hback.cases_head with he | ⟨b, hb, -⟩
    · exact h.not_self (he ▸ ht)
    · exact h.anchor_leads_nowhere hp b hb

/-- The source takes the split of what is left and the anchors. -/
theorem splittable (h : Regrouping g g' set cases paths anchors) :
    Graph.Splittable
      { g'.withoutAll (ids paths) with
        splits := (g'.withoutAll (ids paths)).splits.erase set.source }
      set.source (set.regrouped (g'.withoutAll (ids paths)) anchors) true := by
  refine {
    source_mem := Graph.mem_nodes_withoutAll.mpr
      ⟨fun hid => (h.old hid).2 rfl, h.laid.mem_nodes h.source_mem⟩
    targets_mem := fun t ht => h.branch_mem ht
    branches := ?_
    no_split := fun hm => (Table.mem_erase.mp hm).1 rfl
    no_edge := ?_
    no_cover := ?_
    not_self := h.not_self
    free := by simp
    no_way_back := ?_ }
  · obtain ⟨p, rest, hpaths⟩ := List.exists_cons_of_ne_nil h.nonempty
    exact ⟨_, h.mem_guards.mpr (Or.inr ⟨p, by rw [hpaths]; simp, rfl⟩)⟩
  · intro l hl he
    rw [Graph.edges_withoutAll] at hl
    rcases h.laid.mem_edges.mp (Graph.mem_linksWithout.mp hl).2.2 with hl | ⟨p, hp, rfl⟩
    · exact h.sound.no_edge _ h.qualified.source_mem_splits l hl he
    · have he : p.group.anchor = set.source := he
      exact h.anchor_not_mem hp (he ▸ h.source_mem)
  · intro l hl
    rw [Graph.covers_withoutAll, h.laid.covers_eq] at hl
    exact h.sound.no_cover _ h.qualified.source_mem_splits l (Graph.mem_linksWithout.mp hl).2.2
  · rw [← Bool.not_eq_true]
    intro hlead
    obtain ⟨t, ht, hback⟩ := (splitsLeadTo_iff (h.left.erase_split _).split_target
      fun t ht => h.branch_mem (Table.mem_keys.mp ht)).mp hlead
    refine h.no_way_back (Table.mem_keys.mp ht) ?_
    exact ReflTransGen.mono (fun a b hab => (Graph.branchesTo_erase.mp hab).2) _ _ hback

/-- The branches in their order: those that are left, then the anchors. -/
theorem toList_guards (h : Regrouping g g' set cases paths anchors) :
    (set.regrouped (g'.withoutAll (ids paths)) anchors).guards.toList =
      (cases.guards.toList.filter fun e => !(ids paths).contains e.1) ++ anchors := by
  have hleft : BranchSet.guardsLeft g'.splits set.source = cases.guards := by
    rw [BranchSet.guardsLeft, h.laid.split _ h.source_mem, h.qualified.split]
    rfl
  have hkept : (BranchSet.guardsLeft (g'.withoutAll (ids paths)).splits set.source).toList =
      cases.guards.toList.filter fun e => !(ids paths).contains e.1 := by
    rw [BranchSet.toList_guardsLeft_withoutAll fun hid => (h.old hid).2 rfl, hleft]
  have hascending : (anchors.map (·.1)).Pairwise (· < ·) := by
    rw [h.anchors_eq, List.pairwise_map]
    refine h.laid.apart.imp_of_mem fun {p q} hp hq hpq => ?_
    rw [(h.anchored p hp).merged_eq, (h.anchored q hq).merged_eq] at hpq
    exact Nat.lt_of_succ_lt_succ hpq
  have hold : ∀ e ∈ cases.guards.toList, e.1 < g.next := fun e he =>
    (h.sound.in_range _ (h.sound.split_target _ _ ⟨cases, h.qualified.split,
      Table.mem_of_get? (Table.get?_eq_some.mpr he)⟩)).2
  have hnew : ∀ e ∈ anchors, g.next ≤ e.1 := by
    intro e he
    obtain ⟨p, hp, heq⟩ := h.mem_anchors.mp (List.mem_map_of_mem he)
    exact heq ▸ (h.anchored p hp).anchor_new
  rw [← hkept]
  refine Table.toList_insertAll_of_ascending (List.pairwise_append.mpr ⟨Table.ascending _, ?_, ?_⟩)
  · exact (List.pairwise_map.mp hascending).imp Nat.compare_eq_lt.mpr
  · intro a ha e he
    rw [hkept] at ha
    exact Nat.compare_eq_lt.mpr (Nat.lt_of_lt_of_le (hold a (List.mem_of_mem_filter ha)) (hnew e he))

end Regrouping

namespace BranchSet

variable {g : Graph} {set : BranchSet} {cases : Cases}

/-- The anchors of some groups, each with the guard of its part. -/
def anchors (groups : List Group) (parts : List Part) : List (NodeId × Effect) :=
  groups.zipWith (fun r p => (r.anchor, p.guard)) parts

theorem map_fst_anchors {groups : List Group} {parts : List Part}
    (hlen : groups.length = parts.length) :
    (anchors groups parts).map (·.1) = groups.map (·.anchor) := by
  induction groups generalizing parts with
  | nil => simp [anchors]
  | cons r groups ih =>
    cases parts with
    | nil => simp at hlen
    | cons p parts =>
      rw [List.map_cons, ← ih (Nat.succ.inj hlen)]
      rfl

/-- The graph in which the split of merged branches has been made again. -/
def regroup (set : BranchSet) (g : Graph) (ids : List NodeId)
    (anchors : List (NodeId × Effect)) : Graph :=
  { g.withoutAll ids with
    splits := ((g.withoutAll ids).splits.erase set.source).insert set.source
      (set.regrouped (g.withoutAll ids) anchors) }

theorem sound_regroup {g' : Graph} {paths : List MergedPath} {anchors : List (NodeId × Effect)}
    (h : Regrouping g g' set cases paths anchors) :
    (set.regroup g' (Regrouping.ids paths) anchors).Sound :=
  (h.left.erase_split _).insert_split h.splittable

/-- The ends of a path stay as they are when the branches go. -/
theorem built_regroup {g' : Graph} {paths : List MergedPath} {anchors : List (NodeId × Effect)}
    {config : Config} {p : MergedPath} (h : Regrouping g g' set cases paths anchors)
    (hp : p ∈ paths) (hb : g'.Built set config p) :
    (set.regroup g' (Regrouping.ids paths) anchors).Built set config p := by
  have hnode : ∀ id, id ∉ Regrouping.ids paths →
      (set.regroup g' (Regrouping.ids paths) anchors).nodes.get? id = g'.nodes.get? id :=
    fun id hid => Graph.get?_nodes_withoutAll.trans (if_neg hid)
  have hmerged := h.merged_not_mem_ids hp
  have hne : p.group.merged ≠ set.source := fun he =>
    h.sound.not_mem_of_le (h.laid.merged_new p hp) (he ▸ h.source_mem)
  refine ⟨?_, ?_, ?_, hb.targets⟩
  · rw [hnode _ (h.anchor_not_mem_ids hp), hb.anchor]
  · rw [hnode _ hmerged, hb.merged]
  · have hsplit : (set.regroup g' (Regrouping.ids paths) anchors).splits.get? p.group.merged =
        (g'.withoutAll (Regrouping.ids paths)).splits.get? p.group.merged :=
      (Table.get?_insert_of_ne _ hne).trans (Table.get?_erase_of_ne hne)
    rw [hsplit, Graph.get?_splits_withoutAll h.sound' hmerged, hb.split]
    rintro t ht ⟨c, hc, htc⟩
    rw [hb.split] at hc
    obtain rfl := Option.some.inj hc
    obtain ⟨br, hbr, rfl⟩ := BranchSet.mem_targets.mp htc
    exact h.target_not_mem_ids hp hbr ht

/-- Every part of a split that stands as it was found can be merged. -/
theorem mergeParts_run {parts : List Part} (h : g.Sound) (hq : Qualified g set cases)
    (hne : parts ≠ []) (hparts : ∀ p ∈ parts, MembersOf set p.members p.branches)
    (config : Config) :
    ∃ paths g' es, es = anchors (paths.map (·.group)) parts ∧
      (set.mergeParts config parts).run g =
        .ok (paths.map (·.group)) (set.regroup g' (Regrouping.ids paths) es) ∧
      Regrouping g g' set cases paths es ∧
      List.Forall₂ (PathOf (set.regroup g' (Regrouping.ids paths) es) set config) parts paths := by
  have hfits : ∀ p ∈ parts, g.PartFits p := fun p hp =>
    ⟨(hparts p hp).nonempty, fun b hb => hq.target_mem_nodes h ((hparts p hp).mem b hb)⟩
  obtain ⟨paths, g', hrun, hsound, hlaid, hanchored, hof⟩ := mergePart_all h hfits set config
  have hlen : paths.length = parts.length := hof.length_eq.symm
  have hregroup : Regrouping g g' set cases paths (anchors (paths.map (·.group)) parts) := {
    sound := h
    qualified := hq
    sound' := hsound
    laid := hlaid
    members := by
      intro p hp
      obtain ⟨part, hpart, hpath⟩ := exists_mem_of_forall₂ hof hp
      rw [hpath.members, hpath.branches]
      exact hparts part hpart
    nonempty := by
      rintro rfl
      exact hne (List.eq_nil_of_length_eq_zero hlen.symm)
    anchored := hanchored
    anchors_eq := by
      rw [map_fst_anchors (by rw [List.length_map, hlen]), List.map_map]
      rfl }
  refine ⟨paths, g', _, rfl, ?_, hregroup, ?_⟩
  · have hsplit := Graph.splitFault_eq_none.mpr hregroup.splittable
    unfold regrouped guardsLeft anchors at hsplit
    dsimp only at hsplit
    have hdetach : ((SortedSet.ofList ((paths.map (·.group)).flatMap (·.members))).keys.forM
        fun m => discard (Update.detachNode m)).run g' =
          .ok () (g'.withoutAll (Regrouping.ids paths)) :=
      Update.detachAll_run (Table.keys_nodup _) fun id hid => hlaid.mem_nodes (hregroup.old hid).1
    simp only [mergeParts, EStateM.run_bind, hrun, hdetach, Update.detachSplit_run,
      Update.attachSplit_run, hsplit]
    rfl
  · refine List.forall₂_iff_zip.mpr ⟨hof.length_eq, fun hpair => ?_⟩
    have hpath := List.forall₂_zip hof hpair
    have hp := (List.of_mem_zip hpair).2
    exact ⟨hpath.members, hpath.branches, built_regroup hregroup hp hpath.built⟩

end BranchSet

end StateGraph
