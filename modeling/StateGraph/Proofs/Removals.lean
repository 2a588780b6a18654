-- What a removal takes away and what it leaves. A node goes with every link and every branch
-- that bears its name, a split goes by itself, and all else stands as it was. Path conditions
-- that were in step can only change below a target that the lost split had in common with
-- another one: that target has to follow the other split from now on.
import StateGraph.Proofs.CaseCoverage

namespace StateGraph

open Relation (ReflTransGen)

namespace Graph

variable {g g₁ g' : Graph} {gone id s t : NodeId}

/-! ## What a split gives a target -/

/-- What the split of a node does on the way to a target, if it branches there. -/
def given? (g : Graph) (s t : NodeId) : Option Effect :=
  (g.splits.get? s).bind fun cases => cases.branchEffect? t

theorem given?_eq_some {e : Effect} : g.given? s t = some e ↔
    ∃ cases guard, g.splits.get? s = some cases ∧ cases.guards.get? t = some guard ∧
      cases.shared.extend guard = e := by
  simp [given?, Cases.branchEffect?, Option.bind_eq_some_iff]

theorem branchesTo_iff_given? : BranchesTo g.splits s t ↔ ∃ e, g.given? s t = some e := by
  simp only [BranchesTo, Table.mem_iff, given?_eq_some]
  constructor
  · rintro ⟨cases, hcases, guard, hguard⟩
    exact ⟨_, cases, guard, hcases, hguard, rfl⟩
  · rintro ⟨e, cases, guard, hcases, hguard, -⟩
    exact ⟨cases, hcases, guard, hguard⟩

theorem holdsGiven_iff : g.HoldsGiven s t ↔ ∃ source target e, g.nodes.get? s = some source ∧
    g.nodes.get? t = some target ∧ g.given? s t = some e ∧
      target.constraints = source.constraints ++ e.constraints := by
  simp only [HoldsGiven, given?_eq_some]
  constructor
  · rintro ⟨source, target, cases, guard, hs, ht, hcases, hguard, he⟩
    refine ⟨source, target, _, hs, ht, ⟨cases, guard, hcases, hguard, rfl⟩, ?_⟩
    rw [he, List.append_assoc]
    rfl
  · rintro ⟨source, target, _, hs, ht, ⟨cases, guard, hcases, hguard, rfl⟩, he⟩
    refine ⟨source, target, cases, guard, hs, ht, hcases, hguard, ?_⟩
    rw [he, List.append_assoc]
    rfl

/-! ## Losing a split -/

/-- The split of one node is gone, and perhaps some nodes with it. The nodes that are left
are as they were, and so is what the other splits give them. -/
structure Cut (g g₁ : Graph) (gone : NodeId) : Prop where
  node : ∀ x ∈ g₁.nodes, g₁.nodes.get? x = g.nodes.get? x
  given : ∀ s, ∀ t ∈ g₁.nodes, g₁.given? s t = if s = gone then none else g.given? s t

/-- A node stands below a target that the lost split had in common with one that is left. -/
def BelowShared (g g' : Graph) (gone x : NodeId) : Prop :=
  ∃ t, BranchesTo g.splits gone t ∧ (∃ s, BranchesTo g'.splits s t) ∧
    ReflTransGen (BranchesTo g'.splits) t x

namespace Cut

theorem branchesTo (hcut : Cut g g₁ gone) (ht : t ∈ g₁.nodes) :
    BranchesTo g₁.splits s t ↔ s ≠ gone ∧ BranchesTo g.splits s t := by
  rw [branchesTo_iff_given?, branchesTo_iff_given?, hcut.given s t ht]
  by_cases hs : s = gone <;> simp [hs]

/-- A target that the lost split did not have follows the same split as before. -/
theorem governs (hcut : Cut g g₁ gone) (ht : t ∈ g₁.nodes) (hno : ¬ BranchesTo g.splits gone t)
    (hs : Governs g₁.splits s t) : Governs g.splits s t := by
  refine ⟨((hcut.branchesTo ht).mp hs.branchesTo).2, fun a ha => ?_⟩
  have hne : a ≠ gone := fun he => hno (he ▸ ha)
  exact hs.lowest a ((hcut.branchesTo ht).mpr ⟨hne, ha⟩)

/-- Conditions that were in step stay what they were, but for nodes below a shared target. -/
theorem keeps (hcut : Cut g g₁ gone) (h₁ : Sound g₁) (hstep : g.InStep)
    (hsettles : Settles g₁ g') {x : NodeId} (hx : x ∈ g'.nodes)
    (hno : ¬ BelowShared g g' gone x) : g'.nodes.get? x = g.nodes.get? x := by
  have hsound' : Sound g' := h₁.reconfigured hsettles.toReconfigured
  -- a target is settled by its governor, and what is above a node that is not below a shared
  -- target is not below one either
  induction x using hsound'.acyclic.wellFounded.induction with
  | _ x ih =>
    have hx₁ : x ∈ g₁.nodes := (hsettles.mem_iff x).mp hx
    have hnode := hcut.node x hx₁
    by_cases htarget : ∃ a, BranchesTo g'.splits a x
    · obtain ⟨a, ha⟩ := htarget
      obtain ⟨s, hs⟩ := exists_governs ha
      have hfree : ¬ BranchesTo g.splits gone x := fun hgone => hno ⟨x, hgone, ⟨a, ha⟩, .refl⟩
      have hgoverns : Governs g.splits s x :=
        hcut.governs hx₁ hfree (hsettles.splits_eq ▸ hs)
      have hsource : g'.nodes.get? s = g.nodes.get? s := by
        apply ih s hs.branchesTo
        · obtain ⟨cases, hcases, -⟩ := hs.branchesTo
          exact hsound'.split_source s (Table.mem_of_get? hcases)
        · rintro ⟨t, hgone, hshared, hpath⟩
          exact hno ⟨t, hgone, hshared, hpath.tail hs.branchesTo⟩
      obtain ⟨c, target, e, hc, htarget, he, heq⟩ := holdsGiven_iff.mp (hstep s x hgoverns)
      obtain ⟨c', target', e', hc', htarget', he', heq'⟩ :=
        holdsGiven_iff.mp (hsettles.inStep s x hs)
      obtain rfl : c = c' := Option.some.inj (hc.symm.trans (hsource.symm.trans hc'))
      obtain rfl : e = e' := by
        have hne : s ≠ gone := fun hgone => hfree (hgone ▸ hgoverns.branchesTo)
        have hgiven : g'.given? s x = g.given? s x := by
          rw [given?, hsettles.splits_eq, ← given?, hcut.given s x hx₁, if_neg hne]
        exact Option.some.inj (he.symm.trans (hgiven.symm.trans he'))
      have hterm := hsettles.terms x target target' (hnode.trans htarget) htarget'
      rw [htarget, htarget', Config.eq_of_parts hterm (heq'.trans heq.symm)]
    · have hfree : ∀ a, ¬ BranchesTo g₁.splits a x := fun a ha =>
        htarget ⟨a, hsettles.splits_eq.symm ▸ ha⟩
      rw [hsettles.untargeted x hfree, hnode]

end Cut

/-- The lost split has changed conditions below shared targets only, and so none at all where
no node is the target of two splits. -/
structure ChangesBelow (g g' : Graph) (gone : NodeId) : Prop where
  conditions : ∀ x ∈ g'.nodes, g'.constraints? x ≠ g.constraints? x → BelowShared g g' gone x
  unshared : Unshared g → ∀ x ∈ g'.nodes, g'.nodes.get? x = g.nodes.get? x

theorem Cut.changesBelow (hcut : Cut g g₁ gone) (h₁ : Sound g₁) (hstep : g.InStep)
    (hsettles : Settles g₁ g') : ChangesBelow g g' gone where
  conditions := by
    intro x hx hdiffers
    by_contra hno
    apply hdiffers
    unfold constraints?
    rw [hcut.keeps h₁ hstep hsettles hx hno]
  unshared := by
    intro hunshared x hx
    apply hcut.keeps h₁ hstep hsettles hx
    rintro ⟨t, hgone, ⟨s, hs⟩, -⟩
    have hs₁ : BranchesTo g₁.splits s t := hsettles.splits_eq ▸ hs
    obtain ⟨hne, hs⟩ := (hcut.branchesTo (h₁.split_target s t hs₁)).mp hs₁
    exact hne (hunshared s gone t hs hgone)

/-! ## A node and all that bears its name -/

/-- A node, a link, a split or a branch bears the name. -/
def Mentions (g : Graph) (id : NodeId) : Prop :=
  id ∈ g.nodes ∨ (∃ l ∈ g.edges, l.source = id ∨ l.target = id) ∨
    (∃ l ∈ g.covers, l.source = id ∨ l.target = id) ∨ id ∈ g.splits ∨
    ∃ s, BranchesTo g.splits s id

/-- Whatever bears the name is gone. A split elsewhere has lost its branch of that name, and
stands if it has another one. All the rest, conditions apart, is as it was. -/
structure LeavesOut (g g' : Graph) (id : NodeId) : Prop where
  next_eq : g'.next = g.next
  node : ∀ x, x ∈ g'.nodes ↔ x ≠ id ∧ x ∈ g.nodes
  terms : SameTerms g g'
  edge : ∀ l, g'.edges.get? l =
    if l.source = id ∨ l.target = id then none else g.edges.get? l
  cover : ∀ l, g'.covers.get? l =
    if l.source = id ∨ l.target = id then none else g.covers.get? l
  split : ∀ s left, g'.splits.get? s = some left ↔ s ≠ id ∧ (∃ t, t ∈ left.guards) ∧
    ∃ cases, g.splits.get? s = some cases ∧ left = { cases with guards := cases.guards.erase id }

theorem LeavesOut.not_mentions (h : LeavesOut g g' id) : ¬ g'.Mentions id := by
  rintro (hnode | ⟨l, hl, hid⟩ | ⟨l, hl, hid⟩ | hsplit | ⟨s, left, hleft, hbranch⟩)
  · exact ((h.node id).mp hnode).1 rfl
  · rw [Table.mem_iff, h.edge l, if_pos hid] at hl
    simp at hl
  · rw [Table.mem_iff, h.cover l, if_pos hid] at hl
    simp at hl
  · obtain ⟨left, hleft⟩ := Table.mem_iff.mp hsplit
    exact ((h.split id left).mp hleft).1 rfl
  · obtain ⟨-, -, cases, -, rfl⟩ := (h.split s left).mp hleft
    exact (Table.mem_erase.mp hbranch).1 rfl

theorem leavesOut_without (g : Graph) (id : NodeId) : LeavesOut g (g.without id) id where
  next_eq := rfl
  node := fun x => mem_nodes_without
  terms := by
    intro x c c' hc hc'
    have hx : x ≠ id := (mem_nodes_without.mp (Table.mem_of_get? hc')).1
    rw [without, Table.get?_erase_of_ne hx, hc] at hc'
    rw [Option.some.inj hc']
  edge := fun l => get?_filter_ends
  cover := fun l => get?_filter_ends
  split := fun s left => get?_splitsWithout_eq_some

theorem LeavesOut.reconfigured {g'' : Graph} (h : LeavesOut g g' id) (hg : Reconfigured g' g'')
    (hterms : SameTerms g' g'') : LeavesOut g g'' id where
  next_eq := hg.next_eq.trans h.next_eq
  node := fun x => (hg.mem_iff x).trans (h.node x)
  terms := by
    intro x c c'' hc hc''
    obtain ⟨c', hc'⟩ := Table.mem_iff.mp ((hg.mem_iff x).mp (Table.mem_of_get? hc''))
    exact (hterms x c' c'' hc' hc'').trans (h.terms x c c' hc hc')
  edge := hg.edges_eq ▸ h.edge
  cover := hg.covers_eq ▸ h.cover
  split := hg.splits_eq ▸ h.split

theorem cut_without (g : Graph) (id : NodeId) : Cut g (g.without id) id where
  node := fun x hx => Table.get?_erase_of_ne (mem_nodes_without.mp hx).1
  given := by
    intro s t ht
    have hne : t ≠ id := (mem_nodes_without.mp ht).1
    refine Option.ext fun e => ?_
    have hsplit : ∀ left, (g.without id).splits.get? s = some left ↔ _ := fun left =>
      get?_splitsWithout_eq_some
    simp only [given?_eq_some, hsplit]
    by_cases hs : s = id
    · simp [hs]
    · rw [if_neg hs, given?_eq_some]
      constructor
      · rintro ⟨_, guard, ⟨-, -, cases, hcases, rfl⟩, hguard, he⟩
        rw [Table.get?_erase_of_ne hne] at hguard
        exact ⟨cases, guard, hcases, hguard, he⟩
      · rintro ⟨cases, guard, hcases, hguard, he⟩
        have hkept : (cases.guards.erase id).get? t = some guard := by
          rw [Table.get?_erase_of_ne hne, hguard]
        exact ⟨_, guard, ⟨hs, ⟨t, Table.mem_of_get? hkept⟩, cases, hcases, rfl⟩, hkept, he⟩

theorem cut_erase (g : Graph) (s : NodeId) : Cut g { g with splits := g.splits.erase s } s where
  node := fun _ _ => rfl
  given := by
    intro a t _
    unfold given?
    rw [Table.get?_erase]
    by_cases ha : a = s <;> simp [ha]

end Graph

/-! ## Removals -/

namespace Update

open StateGraph.Graph (Sound Settles SameTerms Reconfigured)

variable {g : Graph} {id source : NodeId}

/-- Conditions are brought up to date only if the node was in some split. Otherwise those
that were in step are so without it. -/
theorem removeNode_ok (h : Sound g) {c : Config} (hc : g.nodes.get? id = some c) :
    ∃ g', (removeNode id).run g = .ok c g' ∧ Reconfigured (g.without id) g' ∧
      SameTerms (g.without id) g' ∧ (g.InStep → Settles (g.without id) g') := by
  rw [removeNode_run, hc]
  by_cases hsplit : g.inSomeSplit id = true
  · obtain ⟨n, g', hrun, hsettles, -⟩ := propagate_settles (h.without id)
    refine ⟨g', ?_, hsettles.toReconfigured, hsettles.terms, fun _ => hsettles⟩
    simp only [hsplit, if_true, settled, hrun]
  · refine ⟨g.without id, by simp only [hsplit]; rfl, .refl _, .refl _, fun hstep => ?_⟩
    exact .refl (hstep.without h (Bool.not_eq_true _ ▸ hsplit))

theorem removeSplit_ok (h : Sound g) {cases : Cases} (hcases : g.splits.get? source = some cases) :
    ∃ g', (removeSplit source).run g = .ok cases g' ∧
      Settles { g with splits := g.splits.erase source } g' := by
  obtain ⟨n, g', hrun, hsettles, -⟩ := propagate_settles (h.erase_split source)
  refine ⟨g', ?_, hsettles⟩
  rw [removeSplit_run, hcases]
  simp only [settled, hrun]

end Update

/-- A node can always be removed, and with it goes exactly what bears its name. A split can
always be removed, and goes alone. Of the conditions that were in step, either changes only
those of nodes below a target that the lost split had in common with another one. -/
theorem Reachable.removals_cascade {g : Graph} (h : Reachable g) :
    (∀ id c, g.nodes.get? id = some c → ∃ g', (Update.removeNode id).run g = .ok c g' ∧
      ¬ g'.Mentions id ∧ g.LeavesOut g' id ∧
      ((∃ g₀, Update.propagate.run g = .ok 0 g₀) → g.ChangesBelow g' id)) ∧
    ∀ source cases, g.splits.get? source = some cases →
      ∃ g', (Update.removeSplit source).run g = .ok cases g' ∧
        g'.splits = g.splits.erase source ∧ g'.next = g.next ∧ g'.edges = g.edges ∧
        g'.covers = g.covers ∧ (∀ x, x ∈ g'.nodes ↔ x ∈ g.nodes) ∧ g.SameTerms g' ∧
        ((∃ g₀, Update.propagate.run g = .ok 0 g₀) → g.ChangesBelow g' source) := by
  have hsound := h.sound
  have hinStep : (∃ g₀, Update.propagate.run g = .ok 0 g₀) → g.InStep :=
    (Update.propagate_zero_iff hsound).mp
  constructor
  · intro id c hc
    obtain ⟨g', hrun, hsame, hterms, hsettles⟩ := Update.removeNode_ok hsound hc
    have hleaves := (Graph.leavesOut_without g id).reconfigured hsame hterms
    refine ⟨g', hrun, hleaves.not_mentions, hleaves, fun hzero => ?_⟩
    have hstep := hinStep hzero
    exact (Graph.cut_without g id).changesBelow (hsound.without id) hstep (hsettles hstep)
  · intro source cases hcases
    obtain ⟨g', hrun, hsettles⟩ := Update.removeSplit_ok hsound hcases
    refine ⟨g', hrun, hsettles.splits_eq, hsettles.next_eq, hsettles.edges_eq,
      hsettles.covers_eq, hsettles.mem_iff, hsettles.terms, fun hzero => ?_⟩
    exact (Graph.cut_erase g source).changesBelow (hsound.erase_split source) (hinStep hzero)
      hsettles

/-- Two merged paths end in splits that share a target, and a split goes on from there. When
the end of the first path goes, the target follows the second one, and all below it with it.
So it is when the end of the first path only loses its split. -/
theorem removals_cascade_overlap :
    let g := Graph.empty.afterAll (overlap ++ [.merge { mergeable := apartXZ } () 1,
      .addNode { term := .var "B" },
      .createSplit 6 { guards := .ofList [(11, .assume [.var "S"])] }])
    Reachable g ∧ (∃ g₀, Update.propagate.run g = .ok 0 g₀) ∧
      (∃ c g', g.nodes.get? 8 = some c ∧ (Update.removeNode 8).run g = .ok c g' ∧
        ¬ g'.Mentions 8 ∧ g'.constraints? 11 ≠ g.constraints? 11 ∧ g.BelowShared g' 8 11) ∧
      ∃ cases g', g.splits.get? 8 = some cases ∧ (Update.removeSplit 8).run g = .ok cases g' ∧
        g'.splits = g.splits.erase 8 ∧ g'.constraints? 11 ≠ g.constraints? 11 ∧
        g.BelowShared g' 8 11 := by
  intro g
  have hreachable : Reachable g := ⟨.empty, _, .empty, rfl⟩
  have hzero : ∃ g₀, Update.propagate.run g = .ok 0 g₀ := exists_settled (by decide +kernel)
  obtain ⟨hnode, hsplit⟩ := hreachable.removals_cascade
  refine ⟨hreachable, hzero, ?_, ?_⟩
  · obtain ⟨c, hc⟩ : ∃ c, g.nodes.get? 8 = some c := Table.mem_iff.mp (by decide +kernel)
    obtain ⟨g', hrun, hgone, -, hbelow⟩ := hnode 8 c hc
    have hleft : stateOf ((Update.removeNode 8).run g) = g' := congrArg stateOf hrun
    have hin : 11 ∈ g'.nodes := hleft ▸ (by decide +kernel)
    have hdiffers : g'.constraints? 11 ≠ g.constraints? 11 := hleft ▸ (by decide +kernel)
    exact ⟨c, g', hc, hrun, hgone, hdiffers, (hbelow hzero).conditions 11 hin hdiffers⟩
  · obtain ⟨cases, hcases⟩ : ∃ cases, g.splits.get? 8 = some cases :=
      Table.mem_iff.mp (by decide +kernel)
    obtain ⟨g', hrun, hsplits, -, -, -, hnodes, -, hbelow⟩ := hsplit 8 cases hcases
    have hleft : stateOf ((Update.removeSplit 8).run g) = g' := congrArg stateOf hrun
    have hin : 11 ∈ g'.nodes := (hnodes 11).mpr (by decide +kernel)
    have hdiffers : g'.constraints? 11 ≠ g.constraints? 11 := hleft ▸ (by decide +kernel)
    exact ⟨cases, g', hcases, hrun, hsplits, hdiffers,
      (hbelow hzero).conditions 11 hin hdiffers⟩

end StateGraph
