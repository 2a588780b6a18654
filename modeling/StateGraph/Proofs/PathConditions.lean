-- Path conditions as equations. A target of several splits takes its condition from
-- the split with the lowest source. Splits have no cycle, so the equations have one
-- solution. Propagation finds it, and writes each target once.
import StateGraph.Proofs.Runs
import StateGraph.Proofs.SplitTurns

namespace StateGraph

/-! ## The split that governs a target -/

/-- Of all splits onto a target this one has the lowest source. -/
structure Governs (splits : Table NodeId Cases) (s t : NodeId) : Prop where
  branchesTo : BranchesTo splits s t
  lowest : ∀ a, BranchesTo splits a t → s ≤ a

theorem Governs.eq {splits : Table NodeId Cases} {s s' t : NodeId} (h : Governs splits s t)
    (h' : Governs splits s' t) : s = s' :=
  Nat.le_antisymm (h.lowest s' h'.branchesTo) (h'.lowest s h.branchesTo)

theorem Config.eq_of_parts {c c' : Config} (hterm : c.term = c'.term)
    (hconstraints : c.constraints = c'.constraints) : c = c' := by
  obtain ⟨term, constraints⟩ := c
  exact congrArg₂ Config.mk hterm hconstraints

namespace Graph

variable {g g' g'' : Graph} {s t : NodeId}

theorem splitSourcesOf_ascending (g : Graph) (t : NodeId) :
    (g.splitSourcesOf t).Pairwise (· < ·) :=
  (g.splits.keys_ascending.imp Nat.compare_eq_lt.mp).sublist (List.filter_sublist.map _)

theorem governorOf_eq_some : g.governorOf t = some s ↔ Governs g.splits s t := by
  have hascending := g.splitSourcesOf_ascending t
  have hmem : ∀ a, a ∈ g.splitSourcesOf t ↔ BranchesTo g.splits a t := fun _ => mem_splitSourcesOf
  unfold governorOf
  cases hsources : g.splitSourcesOf t with
  | nil =>
    rw [hsources] at hmem
    refine ⟨fun h => ?_, fun h => ?_⟩
    · cases h
    · cases (hmem s).mpr h.branchesTo
  | cons a rest =>
    rw [hsources] at hascending hmem
    have ha : Governs g.splits a t := by
      refine ⟨(hmem a).mp List.mem_cons_self, fun b hb => ?_⟩
      rcases List.mem_cons.mp ((hmem b).mpr hb) with rfl | hb
      · exact Nat.le_refl _
      · exact Nat.le_of_lt ((List.pairwise_cons.mp hascending).1 b hb)
    rw [List.head?_cons, Option.some.injEq]
    exact ⟨fun he => he ▸ ha, fun h => ha.eq h⟩

theorem exists_governs (h : BranchesTo g.splits s t) : ∃ a, Governs g.splits a t := by
  cases hgovernor : g.governorOf t with
  | some a => exact ⟨a, governorOf_eq_some.mp hgovernor⟩
  | none =>
    have hs := mem_splitSourcesOf.mpr h
    rw [List.head?_eq_none_iff.mp hgovernor] at hs
    cases hs

/-! ## Conditions in step with the splits -/

/-- A target holds what a split onto it gives: what the source holds, then what the
split assumes for all branches, then what this branch assumes. -/
def HoldsGiven (g : Graph) (s t : NodeId) : Prop :=
  ∃ source target cases guard, g.nodes.get? s = some source ∧ g.nodes.get? t = some target ∧
    g.splits.get? s = some cases ∧ cases.guards.get? t = some guard ∧
    target.constraints = source.constraints ++ cases.shared.constraints ++ guard.constraints

/-- Every target holds what the split that governs it gives. -/
def InStep (g : Graph) : Prop := ∀ s t, Governs g.splits s t → g.HoldsGiven s t

/-- Nodes of both graphs hold the same terms. -/
def SameTerms (g g' : Graph) : Prop :=
  ∀ id c c', g.nodes.get? id = some c → g'.nodes.get? id = some c' → c'.term = c.term

/-- Only path conditions differ, and those of split targets only; afterwards they are in
step with the splits. -/
structure Settles (g g' : Graph) : Prop extends Reconfigured g g' where
  terms : SameTerms g g'
  untargeted : ∀ id, (∀ a, ¬ BranchesTo g.splits a id) → g'.nodes.get? id = g.nodes.get? id
  inStep : g'.InStep

/-- What a node assumes, if it is there. -/
def constraints? (g : Graph) (id : NodeId) : Option (List Formula) :=
  (g.nodes.get? id).map Config.constraints

/-- How many nodes of a graph hold another path condition in another graph. -/
def changes (g g' : Graph) : Nat :=
  g.nodes.keys.countP fun id => decide (g'.constraints? id ≠ g.constraints? id)

theorem HoldsGiven.congr (h : g.HoldsGiven s t) (hsplit : g'.splits.get? s = g.splits.get? s)
    (hs : g'.nodes.get? s = g.nodes.get? s) (ht : g'.nodes.get? t = g.nodes.get? t) :
    g'.HoldsGiven s t := by
  unfold HoldsGiven
  rw [hsplit, hs, ht]
  exact h

/-- Conditions that are in step stay so while governed nodes and their splits stay. -/
theorem InStep.congr (h : g.InStep) (hsplits : g'.splits = g.splits)
    (hnodes : ∀ s t, BranchesTo g.splits s t →
      g'.nodes.get? s = g.nodes.get? s ∧ g'.nodes.get? t = g.nodes.get? t) : g'.InStep := by
  intro s t hst
  rw [hsplits] at hst
  obtain ⟨hs, ht⟩ := hnodes s t hst.branchesTo
  exact (h s t hst).congr (by rw [hsplits]) hs ht

theorem Reconfigured.eq_of_get? (h : Reconfigured g g')
    (hnodes : ∀ id, g'.nodes.get? id = g.nodes.get? id) : g' = g := by
  obtain ⟨next, nodes, edges, splits, covers⟩ := g'
  obtain ⟨rfl, rfl, rfl, rfl, -⟩ := h
  obtain rfl : nodes = g.nodes := Table.ext_get? hnodes
  rfl

theorem SameTerms.refl (g : Graph) : SameTerms g g := by
  intro id c c' hc hc'
  rw [hc] at hc'
  rw [Option.some.inj hc']

theorem SameTerms.trans (h : SameTerms g g') (h' : SameTerms g' g'')
    (hmem : ∀ id ∈ g.nodes, id ∈ g'.nodes) : SameTerms g g'' := by
  intro id c c'' hc hc''
  obtain ⟨c', hc'⟩ := Table.mem_iff.mp (hmem id (Table.mem_of_get? hc))
  exact (h' id c' c'' hc' hc'').trans (h id c c' hc hc')

theorem Settles.refl (h : g.InStep) : Settles g g where
  toReconfigured := .refl g
  terms := .refl g
  untargeted := fun _ _ => rfl
  inStep := h

/-- The equations have one solution: a target is settled by the split that governs it,
and so by nodes before it. -/
theorem Settles.unique (h : Sound g) (h₁ : Settles g g') (h₂ : Settles g g'') : g'' = g' := by
  have hnodes : ∀ id, g''.nodes.get? id = g'.nodes.get? id := by
    intro id
    induction id using h.acyclic.wellFounded.induction with
    | _ t ih =>
      by_cases htarget : ∃ a, BranchesTo g.splits a t
      · obtain ⟨a, ha⟩ := htarget
        obtain ⟨s, hs⟩ := exists_governs ha
        obtain ⟨c₁, t₁, cases₁, guard₁, hc₁, ht₁, hcases₁, hguard₁, he₁⟩ :=
          h₁.inStep s t (h₁.splits_eq ▸ hs)
        obtain ⟨c₂, t₂, cases₂, guard₂, hc₂, ht₂, hcases₂, hguard₂, he₂⟩ :=
          h₂.inStep s t (h₂.splits_eq ▸ hs)
        obtain rfl : c₂ = c₁ := Option.some.inj (hc₂.symm.trans ((ih s hs.branchesTo).trans hc₁))
        obtain rfl : cases₂ = cases₁ := by
          rw [h₂.splits_eq] at hcases₂
          rw [h₁.splits_eq] at hcases₁
          exact Option.some.inj (hcases₂.symm.trans hcases₁)
        obtain rfl : guard₂ = guard₁ := Option.some.inj (hguard₂.symm.trans hguard₁)
        obtain ⟨c, hc⟩ := Table.mem_iff.mp (h.split_target s t hs.branchesTo)
        have hterm : t₂.term = t₁.term :=
          (h₂.terms t c t₂ hc ht₂).trans (h₁.terms t c t₁ hc ht₁).symm
        rw [ht₁, ht₂, Config.eq_of_parts hterm (he₂.trans he₁.symm)]
      · have hno : ∀ a, ¬ BranchesTo g.splits a t := fun a ha => htarget ⟨a, ha⟩
        rw [h₁.untargeted t hno, h₂.untargeted t hno]
  refine Reconfigured.eq_of_get? ⟨?_, ?_, ?_, ?_, fun id => ?_⟩ hnodes
  · rw [h₁.next_eq, h₂.next_eq]
  · rw [h₁.edges_eq, h₂.edges_eq]
  · rw [h₁.splits_eq, h₂.splits_eq]
  · rw [h₁.covers_eq, h₂.covers_eq]
  · rw [h₁.mem_iff, h₂.mem_iff]

/-! ## Counting what changes -/

theorem Reconfigured.keys_perm (h : Reconfigured g g') : g'.nodes.keys.Perm g.nodes.keys := by
  refine (List.perm_ext_iff_of_nodup g'.nodes.keys_nodup g.nodes.keys_nodup).mpr fun id => ?_
  rw [Table.mem_keys, Table.mem_keys, h.mem_iff]

@[simp]
theorem changes_self (g : Graph) : g.changes g = 0 := by simp [changes]

theorem constraints?_eq_of_changes (h : g.changes g' = 0) {id : NodeId} (hid : id ∈ g.nodes) :
    g'.constraints? id = g.constraints? id := by
  unfold changes at h
  have hno := List.countP_eq_zero.mp h id (Table.mem_keys.mpr hid)
  simpa using hno

/-- Where no node changes twice, the changes add up. -/
theorem changes_add (h : Reconfigured g g')
    (honce : ∀ id, g'.nodes.get? id = g.nodes.get? id ∨ g''.nodes.get? id = g'.nodes.get? id) :
    g.changes g'' = g.changes g' + g'.changes g'' := by
  unfold changes
  rw [h.keys_perm.countP_eq]
  induction g.nodes.keys with
  | nil => rfl
  | cons id ids ih =>
    rw [List.countP_cons, List.countP_cons, List.countP_cons, ih]
    unfold constraints?
    rcases honce id with he | he <;> simp [he] <;> omega

/-- Only path conditions of some nodes have been written, and so many have changed. -/
structure Writes (g g' : Graph) (T : NodeId → Prop) (n : Nat) : Prop extends
    Reconfigured g g' where
  terms : SameTerms g g'
  rest : ∀ id, ¬ T id → g'.nodes.get? id = g.nodes.get? id
  count : n = g.changes g'

variable {T T' : NodeId → Prop} {n m : Nat}

theorem Writes.refl (g : Graph) (T : NodeId → Prop) : Writes g g T 0 where
  toReconfigured := .refl g
  terms := .refl g
  rest := fun _ _ => rfl
  count := (changes_self g).symm

theorem Writes.trans (h : Writes g g' T n) (h' : Writes g' g'' T' m)
    (hapart : ∀ id, T id → ¬ T' id) : Writes g g'' (fun id => T id ∨ T' id) (n + m) where
  toReconfigured := h.toReconfigured.trans h'.toReconfigured
  terms := SameTerms.trans h.terms h'.terms fun id => (h.mem_iff id).mpr
  rest := fun id hid => (h'.rest id fun hT => hid (Or.inr hT)).trans
    (h.rest id fun hT => hid (Or.inl hT))
  count := by
    rw [h.count, h'.count]
    refine (changes_add h.toReconfigured fun id => ?_).symm
    by_cases hid : T id
    · exact Or.inr (h'.rest id (hapart id hid))
    · exact Or.inl (h.rest id hid)

theorem Writes.imp (h : Writes g g' T n) (hT : ∀ id, T id → T' id) : Writes g g' T' n :=
  ⟨h.toReconfigured, h.terms, fun id hid => h.rest id fun hT' => hid (hT id hT'), h.count⟩

end Graph

namespace Update

open StateGraph.Graph

variable {g : Graph} {β : Type}

/-! ## Working off a list -/

/-- Works off a list and adds up what each element gives. -/
def tally (f : β → Update Nat) (xs : List β) : Update Nat :=
  xs.foldlM (fun changed x => do return changed + (← f x)) 0

theorem foldlM_start {f : β → Update Nat} {xs : List β} {g' : Graph} {start n : Nat} (more : Nat)
    (h : EStateM.run (xs.foldlM (fun changed x => do return changed + (← f x)) start) g =
      .ok n g') :
    EStateM.run (xs.foldlM (fun changed x => do return changed + (← f x)) (more + start)) g =
      .ok (more + n) g' := by
  induction xs generalizing g start with
  | nil =>
    cases h
    rfl
  | cons x xs ih =>
    rw [List.foldlM_cons] at h ⊢
    simp only [EStateM.run_bind] at h ⊢
    cases hx : (f x).run g with
    | error e g₁ =>
      rw [hx] at h
      cases h
    | ok k g₁ =>
      simp only [hx, EStateM.run_pure, Nat.add_assoc] at h ⊢
      exact ih h

theorem tally_cons {f : β → Update Nat} {x : β} {xs : List β} {g₁ g₂ : Graph} {n m : Nat}
    (hx : (f x).run g = .ok n g₁) (hxs : (tally f xs).run g₁ = .ok m g₂) :
    (tally f (x :: xs)).run g = .ok (n + m) g₂ := by
  unfold tally at hxs ⊢
  rw [List.foldlM_cons]
  simp only [EStateM.run_bind, hx, EStateM.run_pure, Nat.zero_add]
  exact foldlM_start n hxs

/-- A list is worked off when each element can be, writes nodes of its own, and leaves
alone what those before it have settled. -/
theorem tally_writes (f : β → Update Nat) (xs : List β) (T D : β → NodeId → Prop)
    (Q : β → Graph → Prop)
    (hf : ∀ x ∈ xs, ∀ g', Reconfigured g g' →
      ∃ n g'', (f x).run g' = .ok n g'' ∧ Writes g' g'' (T x) n ∧ Q x g'')
    (hT : ∀ x ∈ xs, ∀ id, T x id → D x id)
    (hapart : xs.Pairwise fun x y => ∀ id, D x id → ¬ T y id)
    (hQ : ∀ x ∈ xs, ∀ g' g'', Reconfigured g g' → Reconfigured g' g'' →
      (∀ id, D x id → g''.nodes.get? id = g'.nodes.get? id) → Q x g' → Q x g'') :
    ∃ n g', (tally f xs).run g = .ok n g' ∧ Writes g g' (fun id => ∃ x ∈ xs, T x id) n ∧
      ∀ x ∈ xs, Q x g' := by
  induction xs generalizing g with
  | nil => exact ⟨0, g, rfl, .refl g _, by simp⟩
  | cons x xs ih =>
    obtain ⟨hx, hxs⟩ := List.pairwise_cons.mp hapart
    obtain ⟨n, g₁, hrun, hwrites, hsettled⟩ := hf x List.mem_cons_self g (.refl g)
    obtain ⟨m, g₂, hruns, hmore, hall⟩ := ih (g := g₁)
      (fun y hy g' hg' => hf y (List.mem_cons_of_mem _ hy) g' (hwrites.toReconfigured.trans hg'))
      (fun y hy => hT y (List.mem_cons_of_mem _ hy)) hxs
      (fun y hy g' g'' hg' => hQ y (List.mem_cons_of_mem _ hy) g' g''
        (hwrites.toReconfigured.trans hg'))
    have hlater : ∀ id, D x id → ¬ ∃ y ∈ xs, T y id := fun id hid ⟨y, hy, hTy⟩ =>
      hx y hy id hid hTy
    refine ⟨n + m, g₂, tally_cons hrun hruns, ?_, List.forall_mem_cons.mpr ⟨?_, hall⟩⟩
    · refine (hwrites.trans hmore fun id hid =>
        hlater id (hT x List.mem_cons_self id hid)).imp fun id hid => ?_
      rcases hid with hid | ⟨y, hy, hid⟩
      · exact ⟨x, List.mem_cons_self, hid⟩
      · exact ⟨y, List.mem_cons_of_mem _ hy, hid⟩
    · exact hQ x List.mem_cons_self g₁ g₂ hwrites.toReconfigured hmore.toReconfigured
        (fun id hid => hmore.rest id (hlater id hid)) hsettled

/-! ## One node, one split, all splits -/

theorem assign_writes {id : NodeId} (hid : id ∈ g.nodes) (fs : List Formula) :
    ∃ n g', (assign id fs).run g = .ok n g' ∧ Writes g g' (· = id) n ∧
      g'.constraints? id = some fs := by
  obtain ⟨c, hget, hc⟩ := config_eq hid
  simp only [assign, EStateM.run_bind, EStateM.run_get, ofExcept_run, hc]
  split
  · rename_i hsame
    exact ⟨0, g, rfl, .refl g _, by simp [constraints?, hget, hsame]⟩
  · rename_i hother
    have hget' : ∀ x, (g.nodes.insert id (c.withConstraints fs)).get? x =
        if x = id then some (c.withConstraints fs) else g.nodes.get? x := fun _ => Table.get?_insert
    refine ⟨1, { g with nodes := g.nodes.insert id (c.withConstraints fs) }, rfl,
      ⟨reconfigured_insert hid _, ?_, ?_, ?_⟩, ?_⟩
    · intro x cx cx' hcx hcx'
      rw [hget'] at hcx'
      split at hcx'
      · rename_i hx
        rw [hx, hget] at hcx
        rw [← Option.some.inj hcx, ← Option.some.inj hcx']
        rfl
      · rw [hcx] at hcx'
        rw [Option.some.inj hcx']
    · exact fun x hx => (hget' x).trans (if_neg hx)
    · have hdiffer : ∀ x, decide (Graph.constraints?
          { g with nodes := g.nodes.insert id (c.withConstraints fs) } x ≠ g.constraints? x) =
          (x == id) := by
        intro x
        unfold constraints?
        rw [hget' x]
        by_cases hx : x = id
        · simp [hx, hget, Config.withConstraints, Ne.symm hother]
        · simp [hx]
      unfold changes
      simp only [hdiffer]
      exact (List.count_eq_one_of_mem g.nodes.keys_nodup (Table.mem_keys.mpr hid)).symm
    · simp [constraints?, Config.withConstraints]

/-- Working off a split writes the targets it governs, and each then holds what it
gives. -/
theorem settleSplit_writes (h : Sound g) {s : NodeId} (hs : s ∈ g.splits) :
    ∃ n g', (settleSplit s).run g = .ok n g' ∧ Writes g g' (Governs g.splits s) n ∧
      ∀ t, Governs g.splits s t → g'.HoldsGiven s t := by
  obtain ⟨cases, hcases⟩ := Table.mem_iff.mp hs
  obtain ⟨c, hget, hc⟩ := config_eq (h.split_source s hs)
  have hgoverned : ∀ e, e ∈ cases.guards.toList.filter (fun e => g.governorOf e.1 == some s) ↔
      cases.guards.get? e.1 = some e.2 ∧ Governs g.splits s e.1 := by
    intro e
    rw [List.mem_filter, beq_iff_eq, governorOf_eq_some, Table.get?_eq_some]
  have hbranch : ∀ t, Governs g.splits s t → ∃ guard, cases.guards.get? t = some guard := by
    intro t ht
    obtain ⟨cases', hcases', ht⟩ := ht.branchesTo
    rw [hcases] at hcases'
    exact Table.mem_iff.mp (Option.some.inj hcases' ▸ ht)
  have htally := tally_writes (g := g)
    (fun e : NodeId × Effect =>
      assign e.1 (c.constraints ++ cases.shared.constraints ++ e.2.constraints))
    (cases.guards.toList.filter fun e => g.governorOf e.1 == some s)
    (fun e id => id = e.1) (fun e id => id = e.1)
    (fun e g' => g'.constraints? e.1 =
      some (c.constraints ++ cases.shared.constraints ++ e.2.constraints)) ?_
    (fun _ _ _ => id) ?_ ?_
  · obtain ⟨n, g', hrun, hwrites, hheld⟩ := htally
    have hwrites : Writes g g' (Governs g.splits s) n :=
      hwrites.imp fun t ⟨e, he, ht⟩ => ht ▸ ((hgoverned e).mp he).2
    refine ⟨n, g', ?_, hwrites, fun t ht => ?_⟩
    · simp only [settleSplit, EStateM.run_bind, EStateM.run_get, hcases, ofExcept_run, hc]
      exact hrun
    · obtain ⟨guard, hguard⟩ := hbranch t ht
      obtain ⟨target, htarget, he⟩ :=
        Option.map_eq_some_iff.mp (hheld (t, guard) ((hgoverned _).mpr ⟨hguard, ht⟩))
      -- the source is no target of its own split, so it is as it was read
      refine ⟨c, target, cases, guard, ?_, htarget, ?_, hguard, he⟩
      · rw [hwrites.rest s fun hss => h.acyclic s (.single hss.branchesTo), hget]
      · rw [hwrites.splits_eq, hcases]
  · intro e he g' hg'
    have ht := ((hgoverned e).mp he).2.branchesTo
    exact assign_writes ((hg'.mem_iff _).mpr (h.split_target s e.1 ht)) _
  · have hkeys : cases.guards.toList.Pairwise fun a b => a.1 ≠ b.1 :=
      List.pairwise_map.mp cases.guards.keys_nodup
    exact (hkeys.filter _).imp fun hne id ha hb => hne (ha.symm.trans hb)
  · intro e _ g' g'' _ _ hsame hheld
    have hconstraints : g''.constraints? e.1 = g'.constraints? e.1 := by
      unfold constraints?
      rw [hsame e.1 rfl]
    exact hconstraints.trans hheld

/-- In a sound graph path conditions are brought in step with the splits, and the nodes
for which that changes anything are counted. -/
theorem propagate_settles (h : Sound g) :
    ∃ n g', propagate.run g = .ok n g' ∧ Settles g g' ∧ n = g.changes g' := by
  -- a cycle is the one error of the order; the splits in it are all there
  obtain ⟨order, horder, hord⟩ := exists_splitOrder h.acyclic
  have hmem : ∀ s, s ∈ order ↔ s ∈ g.splits := fun s =>
    (hord.mem_iff s).trans (and_iff_right_of_imp fun hs => SplitOrder.mem_pending.mpr (Or.inl hs))
  have htally := tally_writes (g := g) settleSplit order (Governs g.splits)
    (fun s id => id = s ∨ Governs g.splits s id)
    (fun s g' => ∀ t, Governs g.splits s t → g'.HoldsGiven s t) ?_ (fun _ _ _ => Or.inr) ?_ ?_
  · obtain ⟨n, g', hrun, hwrites, hheld⟩ := htally
    refine ⟨n, g', ?_, ⟨hwrites.toReconfigured, hwrites.terms, fun t ht => ?_, fun s t hst => ?_⟩,
      hwrites.count⟩
    · simp only [propagate, EStateM.run_bind, EStateM.run_get, horder]
      exact hrun
    · exact hwrites.rest t fun ⟨s, _, hst⟩ => ht s hst.branchesTo
    · rw [hwrites.splits_eq] at hst
      obtain ⟨cases, hcases, -⟩ := hst.branchesTo
      exact hheld s ((hmem s).mpr (Table.mem_of_get? hcases)) t hst
  · intro s hs g' hg'
    have hsettle := settleSplit_writes (h.reconfigured hg') (s := s)
    rw [hg'.splits_eq] at hsettle
    exact hsettle ((hmem s).mp hs)
  -- a split that is worked off later branches to no source before it
  · refine (hord.forward.and hord.nodup).imp ?_
    rintro a b ⟨hforward, hne⟩ id (rfl | ha) hb
    · exact hforward hb.branchesTo
    · exact hne (ha.eq hb)
  · intro s _ g' g'' hg' hg'' hsame hheld t hst
    exact (hheld t hst).congr (by rw [hg''.splits_eq]) (hsame s (Or.inl rfl)) (hsame t (Or.inr hst))

/-! ## Graphs in step -/

theorem propagate_of_inStep (h : Sound g) (hstep : g.InStep) : propagate.run g = .ok 0 g := by
  obtain ⟨n, g', hrun, hsettles, hcount⟩ := propagate_settles h
  obtain rfl : g = g' := hsettles.unique h (.refl hstep)
  rw [hrun, hcount, changes_self]

/-- Path conditions are in step exactly when there is nothing to bring up to date. -/
theorem propagate_zero_iff (h : Sound g) : (∃ g', propagate.run g = .ok 0 g') ↔ g.InStep := by
  refine ⟨fun ⟨g', hzero⟩ => ?_, fun hstep => ⟨g, propagate_of_inStep h hstep⟩⟩
  obtain ⟨n, g'', hrun, hsettles, hcount⟩ := propagate_settles h
  rw [hzero] at hrun
  cases hrun
  have hsame : g' = g := by
    refine hsettles.toReconfigured.eq_of_get? fun id => ?_
    cases hid : g.nodes.get? id with
    | none =>
      have hno := (hsettles.mem_iff id).not.mpr (Table.not_mem_iff.mpr hid)
      exact Table.not_mem_iff.mp hno
    | some c =>
      have hmem := Table.mem_of_get? hid
      obtain ⟨c', hc'⟩ := Table.mem_iff.mp ((hsettles.mem_iff id).mpr hmem)
      have hconstraints := constraints?_eq_of_changes hcount.symm hmem
      simp only [constraints?, hid, hc', Option.map_some, Option.some.injEq] at hconstraints
      rw [hc', Config.eq_of_parts (hsettles.terms id c c' hid hc') hconstraints]
  exact hsame ▸ hsettles.inStep

end Update

end StateGraph
