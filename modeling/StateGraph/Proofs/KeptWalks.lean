-- Which nodes are reached from which before and after merging. No walk is new.
-- None is lost either where nothing but their splits enters the branches that are
-- merged, as in graphs that are like a tree; elsewhere an edge into a merged branch
-- goes with the branch.
import StateGraph.Proofs.Failures
import StateGraph.Proofs.Sessions
import StateGraph.Proofs.TreeLike

namespace StateGraph

open Relation (ReflTransGen)

namespace Graph

/-- A sound graph and one that has come of it. -/
structure Follows (g g' : Graph) : Prop where
  sound : g.Sound
  sound' : g'.Sound
  grows : Grows g g'

variable {g g' g'' : Graph}

theorem Reconfigured.follows (h : Reconfigured g g') (hg : g.Sound) : Follows g g' :=
  ⟨hg, hg.reconfigured h, h.grows⟩

theorem Reworked.follows {set : BranchSet} {paths : List MergedPath}
    (h : Reworked g g' set paths) : Follows g g' := ⟨h.sound, h.sound', h.grows⟩

theorem Follows.trans (h : Follows g g') (h' : Follows g' g'') : Follows g g'' :=
  ⟨h.sound, h'.sound', h.grows.trans h'.grows⟩

/-- A node that has gone does not come back. -/
theorem Follows.mem_between (h : Follows g g') (h' : Follows g' g'') {id : NodeId}
    (hid : id ∈ g.nodes) (hid'' : id ∈ g''.nodes) : id ∈ g'.nodes :=
  (h'.grows.fresh id hid'').resolve_right fun hle =>
    h.sound.not_mem_of_le (Nat.le_trans h.grows.next_le hle) hid

/-! ## No walk is new -/

/-- What can be walked between nodes of both graphs could be walked before. -/
structure AddsNoWalk (g g' : Graph) : Prop extends Follows g g' where
  walk : ∀ {a b}, a ∈ g.nodes → b ∈ g.nodes → a ∈ g'.nodes → b ∈ g'.nodes →
    ReflTransGen g'.Leads a b → ReflTransGen g.Leads a b

theorem AddsNoWalk.reaches (h : AddsNoWalk g g') {u v : NodeId} (hu : u ∈ g.nodes)
    (hv : v ∈ g.nodes) (hu' : u ∈ g'.nodes) (hv' : v ∈ g'.nodes) (hreaches : g'.reaches u v = true) :
    g.reaches u v = true := by
  obtain ⟨-, hwalk⟩ := (reaches_iff h.sound').mp hreaches
  exact (reaches_iff h.sound).mpr ⟨hu, h.walk hu hv hu' hv' hwalk⟩

theorem composes_addsNoWalk : Merging.Composes AddsNoWalk := by
  refine .of_reconfigured (fun hg h => ⟨h.follows hg, fun _ _ _ _ hwalk => h.leads ▸ hwalk⟩) ?_
  intro g g' g'' h h'
  refine ⟨h.toFollows.trans h'.toFollows, fun ha hb ha'' hb'' hwalk => ?_⟩
  have ha' := h.mem_between h'.toFollows ha ha''
  have hb' := h.mem_between h'.toFollows hb hb''
  exact h.walk ha hb ha' hb' (h'.walk ha' hb' ha'' hb'' hwalk)

/-! ## Nothing is lost -/

/-- Leaves, walks between nodes of both graphs and the chains of edges are kept. -/
structure LosesNothing (g g' : Graph) : Prop extends Follows g g' where
  leaves : g'.leaves = g.leaves
  walk : ∀ {a b}, a ∈ g.nodes → b ∈ g.nodes → a ∈ g'.nodes → b ∈ g'.nodes →
    ReflTransGen g.Leads a b → ReflTransGen g'.Leads a b
  chain : ∀ {l steps}, g.edges.get? l = some steps →
    ∃ l' steps', g'.edges.get? l' = some steps' ∧ steps <:+: steps'

theorem LosesNothing.reaches (h : LosesNothing g g') {u v : NodeId} (hu : u ∈ g.nodes)
    (hv : v ∈ g.nodes) (hu' : u ∈ g'.nodes) (hv' : v ∈ g'.nodes) (hreaches : g.reaches u v = true) :
    g'.reaches u v = true := by
  obtain ⟨-, hwalk⟩ := (reaches_iff h.sound).mp hreaches
  exact (reaches_iff h.sound').mpr ⟨hu', h.walk hu hv hu' hv' hwalk⟩

theorem Reconfigured.losesNothing (h : Reconfigured g g') (hg : g.Sound) : LosesNothing g g' where
  toFollows := h.follows hg
  leaves := leaves_eq fun x => by rw [mem_leaves, mem_leaves, h.leads, h.mem_iff]
  walk := fun _ _ _ _ hwalk => h.leads.symm ▸ hwalk
  chain := fun {l steps} hl => ⟨l, steps, h.edges_eq.symm ▸ hl, List.infix_rfl⟩

theorem Reworked.losesNothing {set : BranchSet} {paths : List MergedPath}
    (h : Reworked g g' set paths) (hclear : Unentered g paths) : LosesNothing g g' where
  toFollows := h.follows
  leaves := h.leaves_kept hclear
  walk := fun ha hb ha' hb' hwalk =>
    h.walk_kept hclear ((h.mem_nodes ha).mp ha') ((h.mem_nodes hb).mp hb') hwalk
  chain := h.chain_kept hclear

theorem composes_losesNothing : Merging.Composes LosesNothing := by
  refine .of_reconfigured (fun hg h => h.losesNothing hg) ?_
  intro g g' g'' h h'
  refine ⟨h.toFollows.trans h'.toFollows, h'.leaves.trans h.leaves, ?_, fun hl => ?_⟩
  · intro a b ha hb ha'' hb'' hwalk
    have ha' := h.mem_between h'.toFollows ha ha''
    have hb' := h.mem_between h'.toFollows hb hb''
    exact h'.walk ha' hb' ha'' hb'' (h.walk ha hb ha' hb' hwalk)
  · obtain ⟨l', steps', hl', hin⟩ := h.chain hl
    obtain ⟨l'', steps'', hl'', hin'⟩ := h'.chain hl'
    exact ⟨l'', steps'', hl'', hin.trans hin'⟩

end Graph

namespace Merging

variable {σ : Type} {oracle : Oracle σ} {p : Plan} {groups : List Group} {g g' : Graph}

theorem Carried.addsNoWalk (h : Carried p groups g g') : g.AddsNoWalk g' := by
  obtain ⟨paths, hreworked, -⟩ := h
  exact ⟨hreworked.follows, fun ha hb _ _ => hreworked.walk_back ha hb⟩

theorem Carried.losesNothing (h : Carried p groups g g')
    (hclear : ∀ r ∈ groups, ∀ m ∈ r.members, m ∉ g.entered) : g.LosesNothing g' := by
  obtain ⟨paths, hreworked, rfl, -⟩ := h
  exact hreworked.losesNothing (Graph.unentered_of_members fun p hp =>
    hclear p.group (List.mem_map_of_mem hp))

/-- In a graph that is like a tree, nothing but its split enters a branch that is
ever merged. -/
theorem CarriedIn.members_unentered {s : Session σ} {limit : Nat} (h : s.graph.Sound)
    (ht : s.graph.TreeLike) (hc : CarriedIn oracle p groups g g' limit s) :
    ∀ r ∈ groups, ∀ m ∈ r.members, m ∉ g.entered := by
  have hcomposes : Composes fun g g' => g.Ramifies → g'.Ramifies :=
    .of_reconfigured (fun _ hg ht => ht.reconfigured hg) fun h h' ht => h' (h ht)
  have hbefore : g.Ramifies := hc.related hcomposes h (fun p groups g₁ g₂ hc => by
    obtain ⟨paths, hreworked, -⟩ := hc.carried h
    exact hreworked.ramifies) ht.ramifies
  obtain ⟨paths, hreworked, rfl, -⟩ := hc.carried h
  intro r hr m hm
  obtain ⟨path, hpath, rfl⟩ := List.mem_map.mp hr
  exact hbefore.not_mem_entered ((hreworked.branchesTo_iff ⟨path, hpath, hm⟩).mpr rfl)

end Merging

/-! ## Merging any graph -/

open Merging

variable {g : Graph} {σ : Type}

theorem Reachable.addsNoWalk_after_merge (h : Reachable g) (oracle : Oracle σ) (memory : σ)
    (limit : Nat) : g.AddsNoWalk ((Call.merge oracle memory limit).after g) := by
  rw [Call.after_merge]
  exact rounds_related (s := { graph := g, memory := memory }) Graph.composes_addsNoWalk h.sound
    fun p groups g₁ g₂ hc => (hc.carried h.sound).addsNoWalk

/-- Merging makes no node reached from one that did not reach it, whether it ends
well or not. -/
theorem Reachable.merging_adds_no_walk (h : Reachable g) (oracle : Oracle σ) (memory : σ)
    (limit : Nat) :
    let g' := (Call.merge oracle memory limit).after g
    ∀ u v, u ∈ g.nodes → v ∈ g.nodes → u ∈ g'.nodes → v ∈ g'.nodes →
      g'.reaches u v = true → g.reaches u v = true := by
  intro g' u v hu hv hu' hv' hreaches
  exact (h.addsNoWalk_after_merge oracle memory limit).reaches hu hv hu' hv' hreaches

theorem merging_adds_no_walk_fork :
    let g := Graph.empty.afterAll fork
    let g' := (Call.merge Oracle.sameTerm () 64).after g
    2 ∉ g'.nodes ∧ g'.reaches 1 5 = true ∧ g.reaches 1 5 = true := by
  intro g g'
  have hreaches : g'.reaches 1 5 = true := by decide +kernel
  exact ⟨by decide +kernel, hreaches, reachable_fork.merging_adds_no_walk .sameTerm () 64 1 5 (by decide +kernel)
    (by decide +kernel) (by decide +kernel) (by decide +kernel) hreaches⟩

/-- A session in which nothing but its split enters a branch that is merged loses
nothing. -/
theorem Reachable.losesNothing_after_merge (h : Reachable g) {oracle : Oracle σ} {memory : σ}
    {limit : Nat} (hclear : ∀ p groups g₁ g₂,
      CarriedIn oracle p groups g₁ g₂ limit { graph := g, memory := memory } →
      ∀ r ∈ groups, ∀ m ∈ r.members, m ∉ g₁.entered) :
    g.LosesNothing ((Call.merge oracle memory limit).after g) := by
  rw [Call.after_merge]
  exact rounds_related (s := { graph := g, memory := memory }) Graph.composes_losesNothing h.sound
    fun p groups g₁ g₂ hc => (hc.carried h.sound).losesNothing (hclear p groups g₁ g₂ hc)

theorem treeLike_fork : (Graph.empty.afterAll fork).TreeLike := by decide +kernel

/-- A node reached from another stays reached, where no edge and no cover enters a
branch that is merged. -/
theorem Reachable.merging_keeps_walks (h : Reachable g) (oracle : Oracle σ) (memory : σ)
    (limit : Nat) (hclear : ∀ p groups g₁ g₂,
      CarriedIn oracle p groups g₁ g₂ limit { graph := g, memory := memory } →
      ∀ r ∈ groups, ∀ m ∈ r.members, m ∉ g₁.entered) :
    let g' := (Call.merge oracle memory limit).after g
    ∀ u v, u ∈ g.nodes → v ∈ g.nodes → u ∈ g'.nodes → v ∈ g'.nodes →
      g.reaches u v = true → g'.reaches u v = true := by
  intro g' u v hu hv hu' hv' hreaches
  exact (h.losesNothing_after_merge hclear).reaches hu hv hu' hv' hreaches

theorem merging_keeps_walks_fork :
    let g := Graph.empty.afterAll fork
    let g' := (Call.merge Oracle.sameTerm () 64).after g
    2 ∉ g'.nodes ∧ g.reaches 1 5 = true ∧ g'.reaches 1 5 = true := by
  intro g g'
  have hreaches : g.reaches 1 5 = true := by decide +kernel
  exact ⟨by decide +kernel, hreaches, reachable_fork.merging_keeps_walks .sameTerm () 64
    (fun p groups g₁ g₂ hc => hc.members_unentered reachable_fork.sound treeLike_fork) 1 5
    (by decide +kernel) (by decide +kernel) (by decide +kernel) (by decide +kernel) hreaches⟩

/-- Calls that make a split with two branches, one of which an edge enters from
outside. -/
def sideEntry : List Call :=
  (["X", "X", "X", "X", "X", "X"].map fun x => .addNode { term := .var x }) ++
    [.createEdge 2 4 [.guard .top], .createEdge 3 5 [.guard .top], .createEdge 6 2 [.guard .top],
      .createSplit 1 { guards := .ofList [(2, .top), (3, .top)] }]

/-- The edge from outside goes with the branch it enters, and with it the walk to
where the branch led. -/
theorem merging_loses_walk :
    let g := Graph.empty.afterAll sideEntry
    let g' := (Call.merge Oracle.always () 64).after g
    failed ((Call.merge Oracle.always () 64).update.run g) = false ∧
      6 ∈ g.nodes ∧ 4 ∈ g.nodes ∧ 6 ∈ g'.nodes ∧ 4 ∈ g'.nodes ∧
      g.reaches 6 4 = true ∧ g'.reaches 6 4 = false := by
  intro g g'
  refine ⟨?_, ?_, ?_, ?_, ?_, ?_, ?_⟩ <;> decide +kernel

/-! ## Merging a graph that is like a tree -/

/-- Nothing is lost or added in a graph that is like a tree: its leaves, what is
reached from what, and the chain of each edge as a part of a chain. -/
theorem Reachable.merging_lossless_of_treeLike (h : Reachable g) (ht : g.TreeLike) (oracle : Oracle σ)
    (memory : σ) (limit : Nat) :
    let g' := (Call.merge oracle memory limit).after g
    g'.leaves = g.leaves ∧
      (∀ u v, u ∈ g.nodes → v ∈ g.nodes → u ∈ g'.nodes → v ∈ g'.nodes →
        (g'.reaches u v = true ↔ g.reaches u v = true)) ∧
      ∀ l steps, g.edges.get? l = some steps →
        ∃ l' steps', g'.edges.get? l' = some steps' ∧ steps <:+: steps' := by
  intro g'
  have hsession : g.LosesNothing g' := h.losesNothing_after_merge fun p groups g₁ g₂ hc =>
    hc.members_unentered h.sound ht
  refine ⟨hsession.leaves, fun u v hu hv hu' hv' => ⟨fun hreaches => ?_, fun hreaches => ?_⟩,
    fun l steps => hsession.chain⟩
  · exact (h.addsNoWalk_after_merge oracle memory limit).reaches hu hv hu' hv' hreaches
  · exact hsession.reaches hu hv hu' hv' hreaches

theorem merging_lossless_of_treeLike_fork :
    let g := Graph.empty.afterAll fork
    let g' := (Call.merge Oracle.sameTerm () 64).after g
    g.TreeLike ∧ 2 ∉ g'.nodes ∧ g'.leaves = g.leaves ∧
      (g'.reaches 1 6 = true ↔ g.reaches 1 6 = true) ∧
      ∃ l steps, g'.edges.get? l = some steps ∧ [Step.guard .top] <:+: steps := by
  intro g g'
  obtain ⟨hleaves, hreaches, hchain⟩ :=
    reachable_fork.merging_lossless_of_treeLike treeLike_fork .sameTerm () 64
  have hedge : g.edges.get? ⟨2, 5⟩ = some [Step.guard .top] := by decide +kernel
  exact ⟨treeLike_fork, by decide +kernel, hleaves, hreaches 1 6 (by decide +kernel)
    (by decide +kernel) (by decide +kernel) (by decide +kernel), hchain _ _ hedge⟩

end StateGraph
