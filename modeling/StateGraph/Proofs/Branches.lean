-- What it means that a split qualifies for merging, told by its records.
import StateGraph.Merge.Branches
import StateGraph.Proofs.Soundness
import Mathlib.Data.List.Induction

namespace StateGraph

/-- A node as a branch of a split that it belongs to alone, and that it leaves
by one edge. -/
structure BranchAt (g : Graph) (source : NodeId) (cases : Cases) (b : Branch) : Prop where
  owners : g.splitSourcesOf b.node = [source]
  no_split : b.node ∉ g.splits
  no_cover : ∀ l ∈ g.covers, l.source ≠ b.node
  edge : g.edgesWhere (some b.node) none = [(⟨b.node, b.target⟩, b.steps)]
  target_ne : b.target ≠ source
  target_out : b.target ∉ cases.guards
  config : g.nodes.get? b.node = some b.config

/-- A split with at least two branches, all of them in order. -/
structure Qualified (g : Graph) (set : BranchSet) (cases : Cases) : Prop where
  split : g.splits.get? set.source = some cases
  shared : cases.shared = set.shared
  many : 2 ≤ cases.guards.size
  entries : cases.guards.toList = set.branches.map fun b => (b.node, b.guard)
  branch : ∀ b ∈ set.branches, BranchAt g set.source cases b

namespace BranchAt

variable {g : Graph} {source : NodeId} {cases : Cases} {b : Branch}

/-- Its edge is the only one that leaves a branch. -/
theorem get?_edge_iff (h : BranchAt g source cases b) {l : Link} {steps : Chain} :
    g.edges.get? l = some steps ∧ l.source = b.node ↔
      l = ⟨b.node, b.target⟩ ∧ steps = b.steps := by
  rw [← Graph.mem_edgesWhere_source, h.edge, List.mem_singleton, Prod.mk.injEq]

theorem get?_edge (h : BranchAt g source cases b) :
    g.edges.get? ⟨b.node, b.target⟩ = some b.steps := (h.get?_edge_iff.mpr ⟨rfl, rfl⟩).1

theorem mem_edges_iff (h : BranchAt g source cases b) {t : NodeId} :
    (⟨b.node, t⟩ : Link) ∈ g.edges ↔ t = b.target := by
  refine ⟨fun hin => ?_, fun he => he ▸ Table.mem_of_get? h.get?_edge⟩
  obtain ⟨steps, hsteps⟩ := Table.mem_iff.mp hin
  exact congrArg Link.target (h.get?_edge_iff.mp ⟨hsteps, rfl⟩).1

end BranchAt

namespace Graph

variable {g : Graph}

theorem branch?_eq_some {source : NodeId} {cases : Cases} {node : NodeId} {guard : Effect}
    {b : Branch} (h : g.branch? source cases node guard = some b) :
    b.node = node ∧ b.guard = guard ∧ BranchAt g source cases b := by
  unfold branch? at h
  split at h
  · simp at h
  · rename_i howners
    split at h
    · simp at h
    · rename_i hclear
      split at h
      · rename_i l steps hedge
        split at h
        · simp at h
        · rename_i htarget
          obtain ⟨config, hconfig, rfl⟩ := Option.map_eq_some_iff.mp h
          rw [Bool.not_eq_true, Bool.or_eq_false_iff, Bool.not_eq_false',
            coversWhere_source_isEmpty] at hclear
          have hl : (l, steps) ∈ g.edgesWhere (some node) none := by rw [hedge]; simp
          obtain ⟨-, rfl⟩ := mem_edgesWhere_source.mp hl
          rw [Bool.or_eq_true, decide_eq_true_eq, not_or] at htarget
          exact ⟨rfl, rfl, {
            owners := not_not.mp howners
            no_split := Table.contains_eq_false.mp hclear.1
            no_cover := hclear.2
            edge := hedge
            target_ne := htarget.1
            target_out := htarget.2
            config := hconfig }⟩
      · simp at h

theorem branches_eq_some {source : NodeId} {cases : Cases} {entries : List (NodeId × Effect)}
    {branches : List Branch}
    (h : (entries.mapM fun (node, guard) => g.branch? source cases node guard) = some branches) :
    (entries = branches.map fun b => (b.node, b.guard)) ∧
      ∀ b ∈ branches, BranchAt g source cases b := by
  induction entries generalizing branches with
  | nil =>
    obtain rfl : [] = branches := by simpa using h
    simp
  | cons e entries ih =>
    rw [List.mapM_cons] at h
    obtain ⟨b, hb, h⟩ := Option.bind_eq_some_iff.mp h
    obtain ⟨rest, hrest, h⟩ := Option.bind_eq_some_iff.mp h
    obtain rfl := Option.some.inj h
    obtain ⟨hnode, hguard, hbranch⟩ := branch?_eq_some hb
    obtain ⟨hentries, hall⟩ := ih hrest
    exact ⟨by rw [List.map_cons, ← hentries, hnode, hguard],
      List.forall_mem_cons.mpr ⟨hbranch, hall⟩⟩

/-- What is found at a source is a qualifying split. -/
theorem branchSet?_eq_some {source : NodeId} {set : BranchSet}
    (h : g.branchSet? source = some set) :
    set.source = source ∧ ∃ cases, Qualified g set cases := by
  unfold branchSet? at h
  obtain ⟨cases, hcases, h⟩ := Option.bind_eq_some_iff.mp h
  split at h
  · simp at h
  · rename_i hmany
    obtain ⟨branches, hbranches, h⟩ := Option.bind_eq_some_iff.mp h
    obtain rfl := Option.some.inj h
    obtain ⟨hentries, hall⟩ := branches_eq_some hbranches
    exact ⟨rfl, cases, hcases, rfl, Nat.le_of_not_lt hmany, hentries, hall⟩

theorem branch?_of_branchAt {source : NodeId} {cases : Cases} {b : Branch}
    (h : BranchAt g source cases b) : g.branch? source cases b.node b.guard = some b := by
  have hclear : ¬ (g.splits.contains b.node || !(g.coversWhere (some b.node) none).isEmpty) = true := by
    rw [Bool.not_eq_true, Bool.or_eq_false_iff, Bool.not_eq_false', coversWhere_source_isEmpty]
    exact ⟨Table.contains_eq_false.mpr h.no_split, h.no_cover⟩
  have htarget : ¬ (b.target = source ∨ cases.guards.contains b.target = true) :=
    not_or.mpr ⟨h.target_ne, h.target_out⟩
  unfold branch?
  rw [if_neg (not_not.mpr h.owners), if_neg hclear, h.edge]
  simp only [Bool.or_eq_true, decide_eq_true_eq, if_neg htarget, h.config, Option.map_some]

theorem branches_of_branchAt {source : NodeId} {cases : Cases} {branches : List Branch}
    (h : ∀ b ∈ branches, BranchAt g source cases b) :
    ((branches.map fun b => (b.node, b.guard)).mapM
      fun (node, guard) => g.branch? source cases node guard) = some branches := by
  induction branches with
  | nil => rfl
  | cons b branches ih =>
    obtain ⟨hb, hrest⟩ := List.forall_mem_cons.mp h
    rw [List.map_cons, List.mapM_cons, ih hrest]
    simp only [branch?_of_branchAt hb]
    rfl

/-- A qualifying split is found at its source. -/
theorem branchSet?_of_qualified {set : BranchSet} {cases : Cases} (h : Qualified g set cases) :
    g.branchSet? set.source = some set := by
  have hbranches : (cases.guards.toList.mapM
      fun (node, guard) => g.branch? set.source cases node guard) = some set.branches := by
    rw [h.entries]
    exact branches_of_branchAt h.branch
  simp only [branchSet?, h.split, Option.bind_eq_bind, Option.bind_some,
    if_neg (Nat.not_lt.mpr h.many), hbranches, h.shared]
  rfl

end Graph

/-! ## Members of a qualifying split -/

namespace Qualified

variable {g : Graph} {set : BranchSet} {cases : Cases}

theorem nodes_eq (h : Qualified g set cases) :
    set.branches.map (·.node) = cases.guards.keys := by
  rw [Table.keys, h.entries, List.map_map]
  rfl

theorem nodes_nodup (h : Qualified g set cases) : (set.branches.map (·.node)).Nodup := by
  rw [h.nodes_eq]
  exact cases.guards.keys_nodup

theorem ascending (h : Qualified g set cases) :
    set.branches.Pairwise fun a b => a.node < b.node := by
  have hkeys := cases.guards.keys_ascending
  rw [← h.nodes_eq] at hkeys
  exact (List.pairwise_map.mp hkeys).imp Nat.compare_eq_lt.mp

theorem mem_guards (h : Qualified g set cases) {b : Branch} (hb : b ∈ set.branches) :
    b.node ∈ cases.guards := by
  rw [← Table.mem_keys, ← h.nodes_eq]
  exact List.mem_map_of_mem hb

theorem get?_guard (h : Qualified g set cases) {b : Branch} (hb : b ∈ set.branches) :
    cases.guards.get? b.node = some b.guard := by
  rw [Table.get?_eq_some, h.entries]
  exact List.mem_map_of_mem hb

theorem branchEffect?_eq (h : Qualified g set cases) {b : Branch} (hb : b ∈ set.branches) :
    cases.branchEffect? b.node = some (set.fullGuard b) := by
  rw [Cases.branchEffect?, h.get?_guard hb, h.shared]
  rfl

theorem branchesTo (h : Qualified g set cases) {b : Branch} (hb : b ∈ set.branches) :
    BranchesTo g.splits set.source b.node :=
  ⟨cases, h.split, h.mem_guards hb⟩

theorem exists_branch (h : Qualified g set cases) {t : NodeId}
    (ht : BranchesTo g.splits set.source t) : ∃ b ∈ set.branches, b.node = t := by
  obtain ⟨c, hc, ht⟩ := ht
  obtain rfl : cases = c := Option.some.inj (h.split.symm.trans hc)
  rw [← Table.mem_keys, ← h.nodes_eq] at ht
  exact List.mem_map.mp ht

theorem source_mem_splits (h : Qualified g set cases) : set.source ∈ g.splits :=
  Table.mem_of_get? h.split

/-- A branch is no target of a branch. -/
theorem target_ne_node (h : Qualified g set cases) {b b' : Branch} (hb : b ∈ set.branches)
    (hb' : b' ∈ set.branches) : b.target ≠ b'.node := fun he =>
  (h.branch b hb).target_out (he ▸ h.mem_guards hb')

theorem target_mem_nodes (h : Qualified g set cases) (hg : g.Sound) {b : Branch}
    (hb : b ∈ set.branches) : b.target ∈ g.nodes :=
  (hg.edge_ends _ (Table.mem_of_get? (h.branch b hb).get?_edge)).2

theorem node_ne_source (h : Qualified g set cases) (hg : g.Sound) {b : Branch}
    (hb : b ∈ set.branches) : b.node ≠ set.source := fun he =>
  hg.acyclic set.source (.single (he ▸ h.branchesTo hb))

end Qualified

theorem BranchSet.branch_eq {set : BranchSet} {b : Branch} (hnd : (set.branches.map (·.node)).Nodup)
    (hb : b ∈ set.branches) : set.branch b.node = .ok b := by
  unfold BranchSet.branch
  cases hfind : set.branches.find? (·.node == b.node) with
  | none =>
    have := List.find?_eq_none.mp hfind b hb
    simp at this
  | some b' =>
    have hnode : b'.node = b.node := by simpa using List.find?_some hfind
    have hb' := List.mem_of_find?_eq_some hfind
    rw [List.inj_on_of_nodup_map hnd hb' hb hnode]

/-- The branches of members are found, each for its member. -/
theorem BranchSet.branches_ok {set : BranchSet} {members : List NodeId}
    (hnd : (set.branches.map (·.node)).Nodup)
    (hmem : ∀ m ∈ members, m ∈ set.branches.map (·.node)) :
    ∃ bs, members.mapM set.branch = .ok bs ∧ bs.map (·.node) = members ∧
      ∀ b ∈ bs, b ∈ set.branches := by
  induction members with
  | nil => exact ⟨[], rfl, rfl, by simp⟩
  | cons m members ih =>
    obtain ⟨bs, hbs, hmap, hsub⟩ := ih fun x hx => hmem x (List.mem_cons_of_mem _ hx)
    obtain ⟨b, hb, rfl⟩ := List.mem_map.mp (hmem m List.mem_cons_self)
    refine ⟨b :: bs, ?_, by rw [List.map_cons, hmap], List.forall_mem_cons.mpr ⟨hb, hsub⟩⟩
    rw [List.mapM_cons, BranchSet.branch_eq hnd hb, hbs]
    rfl

/-- The chain of a branch is run as a whole. -/
theorem BranchSet.steps_infix_chain (set : BranchSet) {bs : List Branch} {b : Branch}
    (hb : b ∈ bs) : b.steps <:+: set.chain bs := by
  obtain ⟨before, after, rfl⟩ := List.append_of_mem hb
  refine ⟨set.chain before ++ [Step.guard (set.fullGuard b)], set.chain after, ?_⟩
  simp [BranchSet.chain]

/-! ## Where merged branches lead -/

/-- A target has the guard of the first branch that leads to it. -/
theorem BranchSet.get?_targets {bs : List Branch} {t : NodeId} :
    (BranchSet.targets bs).get? t = (bs.find? (·.target == t)).map (·.guard) := by
  induction bs using List.reverseRecOn generalizing t with
  | nil => rfl
  | append_singleton bs b ih =>
    have hstep : BranchSet.targets (bs ++ [b]) = if b.target ∈ BranchSet.targets bs
        then BranchSet.targets bs else (BranchSet.targets bs).insert b.target b.guard := by
      unfold BranchSet.targets
      rw [List.foldl_append]
      rfl
    have hmem : b.target ∈ BranchSet.targets bs ↔ bs.find? (·.target == b.target) ≠ none := by
      rw [Table.mem_iff, ih, ← Option.isSome_iff_exists, Option.isSome_map,
        Option.isSome_iff_ne_none]
    rw [hstep, List.find?_append, List.find?_singleton]
    by_cases ht : t = b.target
    · subst ht
      split
      · rename_i hin
        obtain ⟨first, hfirst⟩ := Option.ne_none_iff_exists'.mp (hmem.mp hin)
        rw [ih, hfirst]
        rfl
      · rename_i hno
        rw [not_not.mp (hmem.not.mp hno), Table.get?_insert_self]
        simp
    · have hother : (b.target == t) = false := beq_false_of_ne (Ne.symm ht)
      rw [hother, if_neg Bool.false_ne_true, Option.or_none, ← ih]
      split
      · rfl
      · exact Table.get?_insert_of_ne _ ht

theorem BranchSet.mem_targets {bs : List Branch} {t : NodeId} :
    t ∈ BranchSet.targets bs ↔ ∃ b ∈ bs, b.target = t := by
  rw [Table.mem_iff, BranchSet.get?_targets, ← Option.isSome_iff_exists, Option.isSome_map,
    List.find?_isSome]
  simp

end StateGraph
