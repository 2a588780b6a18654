-- A merged path put into a graph. Its end is a fresh node that no split branches
-- to, so the split made there closes no cycle.
import StateGraph.Merge.Plan
import StateGraph.Proofs.Branches
import StateGraph.Proofs.Detaching

namespace StateGraph

open Relation (ReflTransGen)

namespace Graph

variable {g : Graph} {start : NodeId} {bs : List Branch}

/-- A path of some branches can be led away from a node. -/
structure PathFits (g : Graph) (start : NodeId) (bs : List Branch) : Prop where
  start_mem : start ∈ g.nodes
  no_split : start ∉ g.splits
  branches : bs ≠ []
  target_mem : ∀ b ∈ bs, b.target ∈ g.nodes

/-- The graph with the path of some branches led from a node to a fresh one. -/
def withPath (g : Graph) (set : BranchSet) (start : NodeId) (config : Config)
    (bs : List Branch) : Graph :=
  { g.withNode config with
    edges := g.edges.insert ⟨start, g.next⟩ (set.chain bs)
    splits := g.splits.insert g.next { shared := set.shared, guards := BranchSet.targets bs } }

/-- Nothing leads to a name that has not been given out. -/
theorem Sound.next_untouched (h : Sound g) :
    (∀ l ∈ g.edges, l.source ≠ g.next ∧ l.target ≠ g.next) ∧
      (∀ l ∈ g.covers, l.source ≠ g.next) ∧ g.next ∉ g.splits ∧
      ∀ a, ¬ BranchesTo g.splits a g.next := by
  have hne : ∀ {id}, id ∈ g.nodes → id ≠ g.next := fun hid he => h.next_not_mem (he ▸ hid)
  refine ⟨fun l hl => ?_, fun l hl => hne (h.cover_ends l hl).1, ?_, ?_⟩
  · exact ⟨hne (h.edge_ends l hl).1, hne (h.edge_ends l hl).2⟩
  · exact fun hs => h.next_not_mem (h.split_source _ hs)
  · exact fun a ha => h.next_not_mem (h.split_target a _ ha)

theorem chain_ne_nil (set : BranchSet) (hbs : bs ≠ []) : set.chain bs ≠ [] := by
  obtain ⟨b, rest, rfl⟩ := List.exists_cons_of_ne_nil hbs
  simp [BranchSet.chain]

theorem PathFits.edgeFault_eq (hfits : PathFits g start bs) (h : Sound g) (set : BranchSet)
    (config : Config) : (g.withNode config).edgeFault ⟨start, g.next⟩ (set.chain bs) = none := by
  refine edgeFault_eq_none.mpr ⟨?_, ?_, chain_ne_nil set hfits.branches, hfits.no_split, ?_⟩
  · exact mem_nodes_withNode.mpr (Or.inr hfits.start_mem)
  · exact mem_nodes_withNode.mpr (Or.inl rfl)
  · exact fun hl => (h.next_untouched.1 _ hl).2 rfl

theorem PathFits.splittable (hfits : PathFits g start bs) (h : Sound g) (set : BranchSet)
    (config : Config) : Splittable
      { g.withNode config with
        edges := (g.withNode config).edges.insert ⟨start, g.next⟩ (set.chain bs) }
      g.next { shared := set.shared, guards := BranchSet.targets bs } true := by
  obtain ⟨hedge, hcover, hsplit, hbranch⟩ := h.next_untouched
  have htarget : ∀ t ∈ BranchSet.targets bs, t ∈ g.nodes := by
    intro t ht
    obtain ⟨b, hb, rfl⟩ := BranchSet.mem_targets.mp ht
    exact hfits.target_mem b hb
  have hself : g.next ∉ BranchSet.targets bs := fun ht => h.next_not_mem (htarget _ ht)
  have hadded := h.withNode config
  have hpath : ∀ t ∈ BranchSet.targets bs, ¬ ReflTransGen (BranchesTo g.splits) t g.next := by
    intro t ht hpath
    -- the last step of such a path would lead to a name not given out
    rcases hpath.cases_tail with he | ⟨a, -, ha⟩
    · exact hself (he ▸ ht)
    · exact hbranch a ha
  refine {
    source_mem := mem_nodes_withNode.mpr (Or.inl rfl)
    targets_mem := fun t ht => mem_nodes_withNode.mpr (Or.inr (htarget t ht))
    branches := ?_
    no_split := hsplit
    no_edge := ?_
    no_cover := hcover
    not_self := hself
    free := by simp
    no_way_back := ?_ }
  · obtain ⟨b, rest, rfl⟩ := List.exists_cons_of_ne_nil hfits.branches
    exact ⟨b.target, BranchSet.mem_targets.mpr ⟨b, List.mem_cons_self, rfl⟩⟩
  · intro l hl
    rcases Table.mem_insert.mp hl with rfl | hl
    · exact fun he => h.next_not_mem (he ▸ hfits.start_mem)
    · exact (hedge l hl).1
  · rw [← Bool.not_eq_true]
    intro hlead
    obtain ⟨t, ht, hback⟩ := (splitsLeadTo_iff hadded.split_target fun t ht =>
      mem_nodes_withNode.mpr (Or.inr (htarget t (Table.mem_keys.mp ht)))).mp hlead
    exact hpath t (Table.mem_keys.mp ht) hback

theorem Sound.withPath (h : Sound g) (hfits : PathFits g start bs) (set : BranchSet)
    (config : Config) : Sound (g.withPath set start config bs) :=
  ((h.withNode config).insert_edge (hfits.edgeFault_eq h set config)).insert_split
    (hfits.splittable h set config)

theorem grows_withPath (g : Graph) (set : BranchSet) (start : NodeId) (config : Config)
    (bs : List Branch) : Grows g (g.withPath set start config bs) :=
  ⟨(grows_withNode g config).next_le, (grows_withNode g config).fresh⟩

end Graph

namespace BranchSet

variable {g : Graph}

theorem addPath_run {start : NodeId} {bs : List Branch} (h : g.Sound) (hfits : g.PathFits start bs)
    (set : BranchSet) (config : Config) :
    (set.addPath start config bs).run g = .ok g.next (g.withPath set start config bs) := by
  have hfault := hfits.edgeFault_eq h set config
  have hsplit := Graph.splitFault_eq_none.mpr (hfits.splittable h set config)
  dsimp only at hsplit
  simp only [addPath, EStateM.run_bind, Update.addNode_run, Update.createEdge_run, hfault,
    Update.attachSplit_run, hsplit]
  rfl

end BranchSet

/-! ## Paths laid over a graph -/

/-- A merged path: the group that reports it, and the branches it runs. -/
structure MergedPath where
  group : Group
  branches : List Branch

/-- The edge that runs the branches. -/
def MergedPath.link (p : MergedPath) : Link := ⟨p.group.anchor, p.group.merged⟩

namespace Graph

variable {g g' g'' : Graph} {set : BranchSet} {paths more : List MergedPath}

/-- What stood still stands. New are the ends of the paths, the edges that run
them, and the splits they end in. -/
structure Laid (g g' : Graph) (set : BranchSet) (paths : List MergedPath) : Prop where
  grows : Grows g g'
  node : ∀ id ∈ g.nodes, g'.nodes.get? id = g.nodes.get? id
  node_new : ∀ id ∈ g'.nodes, id ∈ g.nodes ∨ ∃ p ∈ paths, id = p.group.anchor ∨ id = p.group.merged
  edge : ∀ l steps, g'.edges.get? l = some steps ↔
    g.edges.get? l = some steps ∨ ∃ p ∈ paths, l = p.link ∧ steps = set.chain p.branches
  covers_eq : g'.covers = g.covers
  split : ∀ id ∈ g.nodes, g'.splits.get? id = g.splits.get? id
  branchesTo : ∀ a b, BranchesTo g'.splits a b ↔
    BranchesTo g.splits a b ∨ ∃ p ∈ paths, a = p.group.merged ∧ ∃ br ∈ p.branches, br.target = b
  ends : ∀ p ∈ paths, p.group.anchor ∈ g'.nodes ∧ p.group.merged ∈ g'.nodes
  merged_new : ∀ p ∈ paths, g.next ≤ p.group.merged
  apart : paths.Pairwise fun p q => p.group.merged < q.group.merged

theorem Laid.refl (g : Graph) (set : BranchSet) : Laid g g set [] where
  grows := .refl g
  node := fun _ _ => rfl
  node_new := fun _ => Or.inl
  edge := by simp
  covers_eq := rfl
  split := fun _ _ => rfl
  branchesTo := by simp
  ends := by simp
  merged_new := by simp
  apart := .nil

theorem Laid.mem_nodes (h : Laid g g' set paths) {id : NodeId} (hid : id ∈ g.nodes) :
    id ∈ g'.nodes := by
  obtain ⟨c, hc⟩ := Table.mem_iff.mp hid
  exact Table.mem_of_get? ((h.node id hid).trans hc)

theorem Laid.mem_edges (h : Laid g g' set paths) {l : Link} :
    l ∈ g'.edges ↔ l ∈ g.edges ∨ ∃ p ∈ paths, l = p.link := by
  simp only [Table.mem_iff, h.edge, exists_or]
  refine or_congr Iff.rfl ⟨?_, ?_⟩
  · rintro ⟨steps, p, hp, hl, -⟩
    exact ⟨p, hp, hl⟩
  · rintro ⟨p, hp, hl⟩
    exact ⟨_, p, hp, hl, rfl⟩

theorem Laid.trans (h : Laid g g' set paths) (h' : Laid g' g'' set more) (hg' : g'.Sound) :
    Laid g g'' set (paths ++ more) where
  grows := h.grows.trans h'.grows
  node := fun id hid => (h'.node id (h.mem_nodes hid)).trans (h.node id hid)
  node_new := by
    intro id hid
    simp only [List.mem_append, or_and_right, exists_or]
    rcases h'.node_new id hid with hid | hid
    · exact (h.node_new id hid).imp_right Or.inl
    · exact Or.inr (Or.inr hid)
  edge := by
    intro l steps
    simp only [h'.edge, h.edge, List.mem_append, or_and_right, exists_or, or_assoc]
  covers_eq := h'.covers_eq.trans h.covers_eq
  split := fun id hid => (h'.split id (h.mem_nodes hid)).trans (h.split id hid)
  branchesTo := by
    intro a b
    simp only [h'.branchesTo, h.branchesTo, List.mem_append, or_and_right, exists_or, or_assoc]
  ends := by
    intro p hp
    rcases List.mem_append.mp hp with hp | hp
    · exact (h.ends p hp).imp h'.mem_nodes h'.mem_nodes
    · exact h'.ends p hp
  merged_new := by
    intro p hp
    rcases List.mem_append.mp hp with hp | hp
    · exact h.merged_new p hp
    · exact Nat.le_trans h.grows.next_le (h'.merged_new p hp)
  apart := by
    refine List.pairwise_append.mpr ⟨h.apart, h'.apart, fun p hp q hq => ?_⟩
    exact Nat.lt_of_lt_of_le (hg'.in_range _ (h.ends p hp).2).2 (h'.merged_new q hq)

theorem laid_withPath {start : NodeId} {bs : List Branch} (h : Sound g)
    (hfits : PathFits g start bs) (set : BranchSet) (config : Config) {r : Group}
    (hanchor : r.anchor = start) (hmerged : r.merged = g.next) :
    Laid g (g.withPath set start config bs) set [⟨r, bs⟩] := by
  obtain ⟨hedge, -, hsplit, -⟩ := h.next_untouched
  have hne : ∀ {id}, id ∈ g.nodes → id ≠ g.next := fun hid he => h.next_not_mem (he ▸ hid)
  refine {
    grows := grows_withPath ..
    node := fun id hid => Table.get?_insert_of_ne _ (hne hid)
    node_new := ?_
    edge := ?_
    covers_eq := rfl
    split := fun id hid => Table.get?_insert_of_ne _ (hne hid)
    branchesTo := ?_
    ends := ?_
    merged_new := by simp [hmerged]
    apart := List.pairwise_singleton .. }
  · intro id hid
    rcases mem_nodes_withNode.mp hid with rfl | hid
    · exact Or.inr ⟨_, List.mem_singleton_self _, Or.inr hmerged.symm⟩
    · exact Or.inl hid
  · intro l steps
    have hlink : (⟨r, bs⟩ : MergedPath).link = ⟨start, g.next⟩ := by
      simp [MergedPath.link, hanchor, hmerged]
    have hget : (g.withPath set start config bs).edges.get? l =
        if l = ⟨start, g.next⟩ then some (set.chain bs) else g.edges.get? l := Table.get?_insert
    simp only [hget, List.mem_singleton, exists_eq_left, hlink]
    by_cases hl : l = ⟨start, g.next⟩
    · have hno : g.edges.get? l = none :=
        Table.not_mem_iff.mp fun hm => (hedge l hm).2 (by rw [hl])
      rw [hl] at hno
      simp [hl, hno, eq_comm]
    · simp [hl]
  · intro a b
    have hbranch : BranchesTo (g.withPath set start config bs).splits a b ↔ _ := branchesTo_insert
    have hold : BranchesTo g.splits a b → a ≠ g.next := by
      rintro ⟨c, hc, -⟩ rfl
      exact hsplit (Table.mem_of_get? hc)
    simp only [hbranch, BranchSet.mem_targets, List.mem_singleton, exists_eq_left, hmerged]
    rw [and_iff_right_of_imp hold, or_comm]
  · intro p hp
    obtain rfl := List.mem_singleton.mp hp
    exact ⟨mem_nodes_withNode.mpr (Or.inr (hanchor ▸ hfits.start_mem)),
      mem_nodes_withNode.mpr (Or.inl hmerged)⟩

/-! ## The ends of a path -/

/-- Both ends of a merged path hold one configuration, and the second splits to where
the branches led. -/
structure Built (g : Graph) (set : BranchSet) (config : Config) (p : MergedPath) : Prop where
  anchor : g.nodes.get? p.group.anchor = some config
  merged : g.nodes.get? p.group.merged = some config
  split : g.splits.get? p.group.merged =
    some { shared := set.shared, guards := BranchSet.targets p.branches }
  targets : p.group.targets = (BranchSet.targets p.branches).keys

theorem built_withPath {start : NodeId} {bs : List Branch} {config : Config} (h : Sound g)
    (hstart : g.nodes.get? start = some config) (set : BranchSet) {r : Group}
    (hanchor : r.anchor = start) (hmerged : r.merged = g.next)
    (htargets : r.targets = (BranchSet.targets bs).keys) :
    Built (g.withPath set start config bs) set config ⟨r, bs⟩ := by
  have hne : start ≠ g.next := fun he => h.next_not_mem (he ▸ Table.mem_of_get? hstart)
  refine ⟨?_, ?_, ?_, htargets⟩
  · rw [hanchor]
    exact (Table.get?_insert_of_ne _ hne).trans hstart
  · rw [hmerged]
    exact Table.get?_insert_self ..
  · rw [hmerged]
    exact Table.get?_insert_self ..

/-- Later paths leave the ends of a path as they are. -/
theorem Built.laid {config : Config} {p : MergedPath} (hb : Built g set config p)
    (h : Laid g g' set more) : Built g' set config p where
  anchor := (h.node _ (Table.mem_of_get? hb.anchor)).trans hb.anchor
  merged := (h.node _ (Table.mem_of_get? hb.merged)).trans hb.merged
  split := (h.split _ (Table.mem_of_get? hb.merged)).trans hb.split
  targets := hb.targets

/-! ## Paths from anchors -/

variable {part : Part} {config : Config}

/-- The configuration of an anchor: the source's, and what its guard assumes. -/
def anchorConfig (set : BranchSet) (config : Config) (part : Part) : Config :=
  config.addConstraints (set.shared.constraints ++ part.guard.constraints)

/-- The graph with the merged path of one clique, led from a fresh anchor. -/
def withPart (g : Graph) (set : BranchSet) (config : Config) (part : Part) : Graph :=
  (g.withNode (anchorConfig set config part)).withPath set g.next (anchorConfig set config part)
    part.branches

/-- The branches of a part lead to nodes. -/
structure PartFits (g : Graph) (part : Part) : Prop where
  branches : part.branches ≠ []
  target_mem : ∀ b ∈ part.branches, b.target ∈ g.nodes

theorem PartFits.mono (h : PartFits g part) (hlaid : Laid g g' set paths) : PartFits g' part :=
  ⟨h.branches, fun b hb => hlaid.mem_nodes (h.target_mem b hb)⟩

theorem PartFits.pathFits (hfits : PartFits g part) (h : Sound g) (c : Config) :
    PathFits (g.withNode c) g.next part.branches where
  start_mem := mem_nodes_withNode.mpr (Or.inl rfl)
  no_split := h.next_untouched.2.2.1
  branches := hfits.branches
  target_mem := fun b hb => mem_nodes_withNode.mpr (Or.inr (hfits.target_mem b hb))

theorem Sound.withPart (h : Sound g) (hfits : PartFits g part) (set : BranchSet)
    (config : Config) : Sound (g.withPart set config part) :=
  (h.withNode _).withPath (hfits.pathFits h _) set _

/-- The anchor of a path may be as new as its end. -/
theorem Laid.of_withNode {c : Config} {p : MergedPath} (h : Sound g)
    (hlaid : Laid (g.withNode c) g' set [p]) (hanchor : p.group.anchor = g.next) :
    Laid g g' set [p] := by
  have hold : ∀ {id}, id ∈ g.nodes → id ∈ (g.withNode c).nodes := fun hid =>
    mem_nodes_withNode.mpr (Or.inr hid)
  refine {
    grows := (grows_withNode g c).trans hlaid.grows
    node := fun id hid => (hlaid.node id (hold hid)).trans ?_
    node_new := fun id hid => ?_
    edge := hlaid.edge
    covers_eq := hlaid.covers_eq
    split := fun id hid => hlaid.split id (hold hid)
    branchesTo := hlaid.branchesTo
    ends := hlaid.ends
    merged_new := fun q hq => Nat.le_of_succ_le (hlaid.merged_new q hq)
    apart := hlaid.apart }
  · exact Table.get?_insert_of_ne _ fun he => h.next_not_mem (he ▸ hid)
  · rcases hlaid.node_new id hid with hid | hid
    · rcases mem_nodes_withNode.mp hid with rfl | hid
      · exact Or.inr ⟨p, List.mem_singleton_self p, Or.inl hanchor.symm⟩
      · exact Or.inl hid
    · exact Or.inr hid

end Graph

namespace BranchSet

variable {g : Graph} {set : BranchSet} {config : Config}

/-- The path that a part becomes in a graph. -/
def partPath (set : BranchSet) (g : Graph) (part : Part) : MergedPath where
  group := {
    splitSource := set.source
    members := part.members
    anchor := g.next
    merged := g.next + 1
    targets := (targets part.branches).keys }
  branches := part.branches

theorem mergePart_run {part : Part} (h : g.Sound) (hfits : g.PartFits part) :
    (set.mergePart config part).run g =
      .ok (set.partPath g part).group (g.withPart set config part) := by
  have hpath := addPath_run (h.withNode _) (hfits.pathFits h (Graph.anchorConfig set config part))
    set (Graph.anchorConfig set config part)
  unfold Graph.anchorConfig at hpath
  simp only [mergePart, EStateM.run_bind, Update.addNode_run, hpath]
  rfl

theorem laid_withPart {part : Part} (h : g.Sound) (hfits : g.PartFits part) (set : BranchSet)
    (config : Config) : g.Laid (g.withPart set config part) set [set.partPath g part] :=
  (Graph.laid_withPath (h.withNode _) (hfits.pathFits h _) set _ rfl rfl).of_withNode h rfl

/-- A path that starts at an anchor of its own, and ends in the next node. -/
structure Anchored (g : Graph) (set : BranchSet) (p : MergedPath) : Prop where
  anchor_new : g.next ≤ p.group.anchor
  merged_eq : p.group.merged = p.group.anchor + 1
  source : p.group.splitSource = set.source

theorem exists_mem_of_forall₂ {α β : Type} {R : α → β → Prop} {xs : List α} {ys : List β}
    (h : List.Forall₂ R xs ys) {y : β} (hy : y ∈ ys) : ∃ x ∈ xs, R x y := by
  induction h with
  | nil => cases hy
  | cons hxy _ ih =>
    rcases List.mem_cons.mp hy with rfl | hy
    · exact ⟨_, List.mem_cons_self, hxy⟩
    · obtain ⟨x, hx, hxy⟩ := ih hy
      exact ⟨x, List.mem_cons_of_mem _ hx, hxy⟩

/-- The path of a part stands in a graph. -/
structure PathOf (g : Graph) (set : BranchSet) (config : Config) (part : Part)
    (p : MergedPath) : Prop where
  members : p.group.members = part.members
  branches : p.branches = part.branches
  built : g.Built set (Graph.anchorConfig set config part) p

theorem members_of_paths {parts : List Part} {paths : List MergedPath}
    (h : List.Forall₂ (PathOf g set config) parts paths) :
    paths.map (·.group.members) = parts.map (·.members) := by
  induction h with
  | nil => rfl
  | cons hpath _ ih => rw [List.map_cons, List.map_cons, ih, hpath.members]

theorem pathOf_withPart (h : g.Sound) (set : BranchSet) (config : Config) (part : Part) :
    PathOf (g.withPart set config part) set config part (set.partPath g part) where
  members := rfl
  branches := rfl
  built := Graph.built_withPath (h.withNode _) (Table.get?_insert_self ..) set rfl rfl rfl

/-- The paths of all parts are laid one after another. -/
theorem mergePart_all {parts : List Part} (h : g.Sound) (hfits : ∀ p ∈ parts, g.PartFits p)
    (set : BranchSet) (config : Config) :
    ∃ paths g', (parts.mapM (set.mergePart config)).run g = .ok (paths.map (·.group)) g' ∧
      g'.Sound ∧ g.Laid g' set paths ∧ (∀ p ∈ paths, Anchored g set p) ∧
      List.Forall₂ (PathOf g' set config) parts paths := by
  -- each path leaves a sound graph in which the other parts still fit
  induction parts generalizing g with
  | nil => exact ⟨[], g, rfl, h, .refl g set, by simp, .nil⟩
  | cons p parts ih =>
    have hp := hfits p List.mem_cons_self
    have hfirst := laid_withPart h hp set config
    have hsound := h.withPart hp set config
    obtain ⟨paths, g', hrun, hsound', hlaid, hanchored, hparts⟩ :=
      ih hsound fun q hq => (hfits q (List.mem_cons_of_mem _ hq)).mono hfirst
    refine ⟨set.partPath g p :: paths, g', ?_, hsound', hfirst.trans hlaid hsound, ?_, ?_⟩
    · rw [List.mapM_cons]
      simp only [EStateM.run_bind, mergePart_run h hp, hrun]
      rfl
    · refine List.forall_mem_cons.mpr ⟨⟨Nat.le_refl _, rfl, rfl⟩, fun q hq => ?_⟩
      have ha := hanchored q hq
      exact { ha with anchor_new := Nat.le_trans hfirst.grows.next_le ha.anchor_new }
    · have hpath := pathOf_withPart h set config p
      exact .cons ⟨hpath.members, hpath.branches, hpath.built.laid hlaid⟩ hparts

end BranchSet

end StateGraph
