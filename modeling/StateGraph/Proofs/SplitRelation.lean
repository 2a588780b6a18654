-- The relation that splits draw between nodes, and when it has no cycle. The
-- search before a split is added decides whether the split would close one.
import StateGraph.Proofs.Search

namespace StateGraph

open Relation (ReflTransGen TransGen)

/-- The split of `a` has a branch to `b`. -/
def BranchesTo (splits : Table NodeId Cases) (a b : NodeId) : Prop :=
  ∃ cases, splits.get? a = some cases ∧ b ∈ cases.guards

/-- No node leads back to itself through splits. -/
def Acyclic (splits : Table NodeId Cases) : Prop := ∀ a, ¬ TransGen (BranchesTo splits) a a

/-! ## Relations without cycles -/

/-- A path that may use new steps from `s` to some `t` of `T` is an old path, or
comes through `s` and one of them. -/
theorem path_of_added {α : Type} {r r' : α → α → Prop} {s : α} {T : α → Prop}
    (hnew : ∀ a b, r' a b → r a b ∨ a = s ∧ T b) (hno : ∀ t, T t → ¬ ReflTransGen r t s)
    {a b : α} (h : TransGen r' a b) :
    TransGen r a b ∨ ReflTransGen r a s ∧ ∃ t, T t ∧ ReflTransGen r t b := by
  -- the path is followed from its start; after a new step it never meets `s` again
  induction h with
  | single hab =>
    rcases hnew _ _ hab with h | ⟨rfl, hb⟩
    · exact Or.inl (.single h)
    · exact Or.inr ⟨.refl, _, hb, .refl⟩
  | tail _ hbc ih =>
    rcases ih with h | ⟨has, t, ht, htb⟩
    · rcases hnew _ _ hbc with hbc | ⟨rfl, hc⟩
      · exact Or.inl (h.tail hbc)
      · exact Or.inr ⟨h.to_reflTransGen, _, hc, .refl⟩
    · rcases hnew _ _ hbc with hbc | ⟨rfl, hc⟩
      · exact Or.inr ⟨has, t, ht, htb.tail hbc⟩
      · exact absurd htb (hno t ht)

/-- New steps out of one node close no cycle if none of their ends leads back
to it. -/
theorem no_cycle_of_added {α : Type} {r r' : α → α → Prop} {s : α} {T : α → Prop}
    (hnew : ∀ a b, r' a b → r a b ∨ a = s ∧ T b) (hno : ∀ t, T t → ¬ ReflTransGen r t s)
    (h : ∀ a, ¬ TransGen r a a) (a : α) : ¬ TransGen r' a a := by
  intro hc
  rcases path_of_added hnew hno hc with hc | ⟨has, t, ht, hta⟩
  · exact h a hc
  · exact hno t ht (hta.trans has)

/-! ## Splits without cycles -/

theorem Acyclic.mono {splits splits' : Table NodeId Cases} (h : Acyclic splits)
    (hsub : ∀ a b, BranchesTo splits' a b → BranchesTo splits a b) : Acyclic splits' :=
  fun a hc => h a (TransGen.mono hsub a a hc)

theorem branchesTo_insert {splits : Table NodeId Cases} {s : NodeId} {cases : Cases} {a b : NodeId} :
    BranchesTo (splits.insert s cases) a b ↔
      (a = s ∧ b ∈ cases.guards) ∨ (a ≠ s ∧ BranchesTo splits a b) := by
  unfold BranchesTo
  by_cases h : a = s <;> simp [Table.get?_insert, h]

theorem acyclic_insert {splits : Table NodeId Cases} {s : NodeId} {cases : Cases}
    (h : Acyclic splits)
    (hno : ∀ t ∈ cases.guards, ¬ ReflTransGen (BranchesTo splits) t s) :
    Acyclic (splits.insert s cases) := by
  refine no_cycle_of_added (T := (· ∈ cases.guards)) ?_ hno h
  intro a b hab
  rcases branchesTo_insert.mp hab with h | ⟨-, h⟩
  · exact Or.inr h
  · exact Or.inl h

theorem acyclic_empty : Acyclic ∅ := by
  intro a hc
  rcases Relation.TransGen.head'_iff.mp hc with ⟨b, ⟨cases, hcases, -⟩, -⟩
  simp at hcases

theorem mem_targets {splits : Table NodeId Cases} {a b : NodeId} :
    b ∈ ((splits.get? a).map Cases.targets).getD [] ↔ BranchesTo splits a b := by
  unfold BranchesTo
  cases h : splits.get? a <;> simp [Cases.targets, Table.mem_keys]

theorem mem_splitTargets {g : Graph} {a b : NodeId} :
    b ∈ g.splitTargets a ↔ BranchesTo g.splits a b := mem_targets

section

variable {g : Graph} {start : List NodeId} {goal : NodeId}

theorem enough_splitTargets (hstart : ∀ x ∈ start, x ∈ g.nodes) :
    Enough g.splitTargets g.nodes.keys (searchSteps g.splitTargets g.nodes.keys start)
      start.reverse ∅ :=
  enough_start (fun x hx => Table.mem_keys.mpr (hstart x (List.mem_reverse.mp hx)))
    (by simp [searchSteps])

theorem splitTargets_closed (hends : ∀ a b, BranchesTo g.splits a b → b ∈ g.nodes) :
    ∀ x ∈ g.nodes.keys, ∀ y ∈ g.splitTargets x, y ∈ g.nodes.keys :=
  fun x _ y hy => Table.mem_keys.mpr (hends x y (mem_splitTargets.mp hy))

/-- Between nodes of the graph the search for a goal ends at the goal, or because nothing
waits any more. -/
theorem searchesFor_splitsLeadTo (hends : ∀ a b, BranchesTo g.splits a b → b ∈ g.nodes)
    (hstart : ∀ x ∈ start, x ∈ g.nodes) :
    SearchesFor (stack g.splitTargets) goal start.reverse ∅ (g.splitsLeadTo start goal) :=
  (pushes_stack g.splitTargets).searchesFor (splitTargets_closed hends)
    (enough_splitTargets hstart)

/-- Between nodes of the graph the search finds exactly the paths through
splits. -/
theorem splitsLeadTo_iff (hends : ∀ a b, BranchesTo g.splits a b → b ∈ g.nodes)
    (hstart : ∀ x ∈ start, x ∈ g.nodes) :
    g.splitsLeadTo start goal = true ↔
      ∃ x ∈ start, ReflTransGen (BranchesTo g.splits) x goal := by
  have hpushes := pushes_stack g.splitTargets
  have hfull := hpushes.searches (splitTargets_closed hends) (enough_splitTargets hstart)
  have hmet := hfull.mem_iff hpushes (y := goal)
  simp only [List.mem_reverse, mem_splitTargets] at hmet
  rw [(searchesFor_splitsLeadTo hends hstart).iff_mem hfull (Table.not_mem_empty goal), hmet]

end

end StateGraph
