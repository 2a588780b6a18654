-- The order of splits. Every node that still waits has its number of waiting
-- splits noted, so no number falls below zero, and only a cycle can keep a
-- node waiting for ever.
import StateGraph.Graph.SplitOrder
import StateGraph.Proofs.SplitRelation
import Mathlib.Order.WellFoundedSet

namespace StateGraph

open Relation (TransGen)

/-- Splits without cycles can be followed down to where they start. -/
theorem Acyclic.wellFounded {splits : Table NodeId Cases} (h : Acyclic splits) :
    WellFounded (BranchesTo splits) := by
  have horder : IsStrictOrder NodeId (TransGen (BranchesTo splits)) :=
    { irrefl := h, trans := fun _ _ _ => TransGen.trans }
  have hsource : ∀ {a b}, BranchesTo splits a b → a ∈ splits := fun ⟨_, hcases, _⟩ =>
    Table.mem_of_get? hcases
  have hfin : {x | x ∈ splits}.Finite :=
    splits.keys.finite_toSet.subset fun _ => Table.mem_keys.mpr
  have hwf := Set.wellFoundedOn_iff.mp (hfin.wellFoundedOn (r := TransGen (BranchesTo splits)))
  have hacc : ∀ s, s ∈ splits → Acc (BranchesTo splits) s := by
    intro s
    induction s using hwf.induction with
    | _ s ih => exact fun hs => ⟨s, fun a ha => ih a ⟨.single ha, hsource ha, hs⟩ (hsource ha)⟩
  exact ⟨fun t => ⟨t, fun a ha => hacc a (hsource ha)⟩⟩

namespace SplitOrder

variable {splits : Table NodeId Cases} {p : Pending}

/-! ## The invariant of the waiting nodes -/

/-- How many splits of waiting nodes branch to a node. -/
def owners (splits : Table NodeId Cases) (p : Pending) (id : NodeId) : Nat :=
  splits.toList.countP fun e => e.2.guards.contains id && p.contains e.1

/-- Every waiting node has its owners counted, and keeps its targets waiting. -/
structure Waiting (splits : Table NodeId Cases) (p : Pending) : Prop where
  counted : ∀ id n, p.get? id = some n → n = owners splits p id
  ahead : ∀ a b, BranchesTo splits a b → a ∈ p → b ∈ p

theorem owners_congr {q : Pending} {id : NodeId} (h : ∀ x, x ∈ p ↔ x ∈ q) :
    owners splits p id = owners splits q id := by
  have hpq : ∀ x, p.contains x = q.contains x := fun x => Bool.eq_iff_iff.mpr (h x)
  simp only [owners, hpq]

theorem owners_pos {a id : NodeId} (h : BranchesTo splits a id) (ha : a ∈ p) :
    0 < owners splits p id := by
  obtain ⟨cases, hcases, hid⟩ := h
  refine List.countP_pos_iff.mpr ⟨(a, cases), Table.get?_eq_some.mp hcases, ?_⟩
  exact Bool.and_eq_true_iff.mpr ⟨hid, ha⟩

theorem exists_owner {id : NodeId} (h : 0 < owners splits p id) :
    ∃ a ∈ p, BranchesTo splits a id := by
  obtain ⟨⟨a, cases⟩, hmem, hown⟩ := List.countP_pos_iff.mp h
  obtain ⟨hid, ha⟩ := Bool.and_eq_true_iff.mp hown
  exact ⟨a, ha, cases, Table.get?_eq_some.mpr hmem, hid⟩

/-- Nothing that waits branches to a node without owners. -/
theorem not_branchesTo_of_owners {a id : NodeId} (h : owners splits p id = 0) (ha : a ∈ p) :
    ¬ BranchesTo splits a id := fun hb => by
  have := owners_pos hb ha
  omega

/-- Without one node that waits, the owners left are those that are not it. -/
theorem owners_eq_erase_add (splits : Table NodeId Cases) (p : Pending) (id x : NodeId) :
    owners splits p x = owners splits (p.erase id) x +
      ((splits.get? id).map (id, ·)).toList.countP fun e =>
        e.2.guards.contains x && p.contains e.1 := by
  unfold owners
  rw [List.countP_eq_countP_filter_add _ _ fun e => compare id e.1 == .eq,
    Table.toList_filter_key, List.countP_filter, Nat.add_comm]
  congr 1
  refine List.countP_congr fun e _ => ?_
  have he : (p.erase id).contains e.1 = true ↔ e.1 ≠ id ∧ p.contains e.1 = true := Table.mem_erase
  have hne : (!(compare id e.1 == .eq)) = true ↔ e.1 ≠ id := by
    rw [Bool.not_eq_true', beq_eq_false_iff_ne, ne_eq, ne_eq, Nat.compare_eq_eq, eq_comm]
  rw [Bool.and_eq_true, Bool.and_eq_true, Bool.and_eq_true, he, hne]
  tauto

theorem owners_erase_of_branchesTo {id x : NodeId} (hid : id ∈ p) (h : BranchesTo splits id x) :
    owners splits p x = owners splits (p.erase id) x + 1 := by
  obtain ⟨cases, hcases, hx⟩ := h
  rw [owners_eq_erase_add splits p id x, hcases]
  have hx : cases.guards.contains x = true := hx
  have hid : p.contains id = true := hid
  simp [hx, hid]

theorem owners_erase_of_not {id x : NodeId} (h : ¬ BranchesTo splits id x) :
    owners splits p x = owners splits (p.erase id) x := by
  rw [owners_eq_erase_add splits p id x]
  cases hcases : splits.get? id with
  | none => rfl
  | some cases =>
    have hx : cases.guards.contains x = false :=
      Table.contains_eq_false.mpr fun hx => h ⟨cases, hcases, hx⟩
    simp [hx]

/-! ## One turn -/

theorem mem_pending {id : NodeId} :
    id ∈ pending splits ↔ id ∈ splits ∨ ∃ a, BranchesTo splits a id := by
  unfold pending
  rw [Table.mem_iff]
  simp only [Table.get?_mapValues, Option.map_eq_some_iff]
  constructor
  · rintro ⟨-, u, hu, -⟩
    rcases List.mem_append.mp (SortedSet.mem_ofList.mp (Table.mem_of_get? hu)) with h | h
    · exact Or.inl (Table.mem_keys.mp h)
    · obtain ⟨⟨a, cases⟩, he, hid⟩ := List.mem_flatMap.mp h
      exact Or.inr ⟨a, cases, Table.get?_eq_some.mpr he, Table.mem_keys.mp hid⟩
  · intro h
    have hmem : id ∈ SortedSet.ofList (splits.keys ++ splits.toList.flatMap fun e => e.2.targets) := by
      refine SortedSet.mem_ofList.mpr (List.mem_append.mpr ?_)
      rcases h with h | ⟨a, cases, hcases, hid⟩
      · exact Or.inl (Table.mem_keys.mpr h)
      · exact Or.inr (List.mem_flatMap.mpr
          ⟨(a, cases), Table.get?_eq_some.mp hcases, Table.mem_keys.mpr hid⟩)
    obtain ⟨u, hu⟩ := Table.mem_iff.mp hmem
    exact ⟨_, u, hu, rfl⟩

/-- At first all sources and targets wait. -/
theorem waiting_pending (splits : Table NodeId Cases) : Waiting splits (pending splits) where
  counted := by
    intro id n hn
    have hsource : ∀ e ∈ splits.toList, (pending splits).contains e.1 = true := fun e he =>
      mem_pending.mpr (Or.inl (Table.mem_of_get? (Table.get?_eq_some.mpr he)))
    have hown : owners splits (pending splits) id =
        splits.toList.countP fun e => e.2.guards.contains id :=
      List.countP_congr fun e he => by rw [hsource e he, Bool.and_true]
    unfold pending at hn
    rw [Table.get?_mapValues, Option.map_eq_some_iff] at hn
    obtain ⟨-, -, rfl⟩ := hn
    exact hown.symm
  ahead := fun a b hab _ => mem_pending.mpr (Or.inr ⟨a, hab⟩)

/-- Working off targets that all have owners takes one from each. -/
theorem settle_all {ts : List NodeId} (hnd : ts.Nodup)
    (hts : ∀ t ∈ ts, ∃ n, p.get? t = some (n + 1)) :
    ∃ q, ts.foldlM settle p = .ok q ∧ ∀ x,
      q.get? x = if x ∈ ts then (p.get? x).map (· - 1) else p.get? x := by
  induction ts generalizing p with
  | nil => exact ⟨p, rfl, by simp⟩
  | cons t rest ih =>
    obtain ⟨htrest, hrest⟩ := List.nodup_cons.mp hnd
    obtain ⟨n, hn⟩ := hts t List.mem_cons_self
    have hstep : settle p t = .ok (p.insert t n) := by simp [settle, hn]
    obtain ⟨q, hq, hget⟩ := ih (p := p.insert t n) hrest fun u hu => by
      have hut : u ≠ t := fun he => htrest (he ▸ hu)
      rw [Table.get?_insert_of_ne _ hut]
      exact hts u (List.mem_cons_of_mem _ hu)
    refine ⟨q, by rw [List.foldlM_cons, hstep]; exact hq, ?_⟩
    intro x
    rw [hget x]
    by_cases hxt : x = t
    · subst hxt
      simp [htrest, hn]
    · simp [hxt, Table.get?_insert_of_ne _ hxt]

/-- A node without owners leaves; the targets of its split have one owner
less. -/
theorem Waiting.leave {id : NodeId} (h : Waiting splits p) (hid : p.get? id = some 0) :
    ∃ q, (((splits.get? id).map Cases.targets).getD []).foldlM settle (p.erase id) = .ok q ∧
      Waiting splits q ∧ ∀ x, x ∈ q ↔ x ≠ id ∧ x ∈ p := by
  have hmem : id ∈ p := Table.mem_of_get? hid
  have hfree : ∀ a ∈ p, ¬ BranchesTo splits a id := fun a ha =>
    not_branchesTo_of_owners (h.counted id 0 hid).symm ha
  have hnd : (((splits.get? id).map Cases.targets).getD []).Nodup := by
    cases splits.get? id with
    | none => exact List.nodup_nil
    | some cases => exact cases.guards.keys_nodup
  have htargets : ∀ t, BranchesTo splits id t → t ≠ id ∧ t ∈ p := fun t ht =>
    ⟨fun he => hfree id hmem (he ▸ ht), h.ahead id t ht hmem⟩
  obtain ⟨q, hq, hget⟩ := settle_all (p := p.erase id) hnd fun t ht => by
    have ht := mem_targets.mp ht
    obtain ⟨hne, htp⟩ := htargets t ht
    obtain ⟨n, hn⟩ := Table.mem_iff.mp htp
    have hpos := owners_pos ht hmem
    rw [← h.counted t n hn] at hpos
    refine ⟨n - 1, ?_⟩
    rw [Table.get?_erase_of_ne hne, hn, Nat.sub_add_cancel hpos]
  have hqmem : ∀ x, x ∈ q ↔ x ≠ id ∧ x ∈ p := by
    intro x
    rw [← Table.mem_erase, Table.mem_iff, Table.mem_iff, hget x]
    split <;> simp [Option.map_eq_some_iff]
  refine ⟨q, hq, ⟨?_, ?_⟩, hqmem⟩
  · intro x n hn
    obtain ⟨hne, -⟩ := (hqmem x).mp (Table.mem_of_get? hn)
    have hown : owners splits q x = owners splits (p.erase id) x :=
      owners_congr fun y => (hqmem y).trans Table.mem_erase.symm
    rw [hget x, Table.get?_erase_of_ne hne] at hn
    split at hn
    · rename_i hx
      obtain ⟨m, hm, rfl⟩ := Option.map_eq_some_iff.mp hn
      have := h.counted x m hm
      rw [owners_erase_of_branchesTo hmem (mem_targets.mp hx)] at this
      omega
    · rename_i hx
      rw [hown, ← owners_erase_of_not fun hb => hx (mem_targets.mpr hb)]
      exact h.counted x n hn
  · intro a b hab ha
    obtain ⟨-, ha⟩ := (hqmem a).mp ha
    exact (hqmem b).mpr ⟨fun he => hfree a ha (he ▸ hab), h.ahead a b hab ha⟩

/-- The node whose turn it is has no owners, and the others wait on without it. -/
theorem Waiting.turn {id : NodeId} {n : Nat} (h : Waiting splits p)
    (hfind : p.toList.find? (·.2 == 0) = some (id, n)) :
    (id ∈ p ∧ ∀ a ∈ p, ¬ BranchesTo splits a id) ∧
      ∃ q, (((splits.get? id).map Cases.targets).getD []).foldlM settle (p.erase id) = .ok q ∧
        Waiting splits q ∧ (∀ x, x ∈ q ↔ x ≠ id ∧ x ∈ p) ∧ q.size < p.size := by
  have hn : n = 0 := by simpa using List.find?_some hfind
  have hid : p.get? id = some 0 := by
    rw [Table.get?_eq_some, ← hn]
    exact List.mem_of_find?_eq_some hfind
  have hmem : id ∈ p := Table.mem_of_get? hid
  obtain ⟨q, hq, hwait, hqmem⟩ := h.leave hid
  refine ⟨⟨hmem, fun a ha => not_branchesTo_of_owners (h.counted id 0 hid).symm ha⟩, q, hq, hwait,
    hqmem, ?_⟩
  exact Table.size_lt (fun x hx => ((hqmem x).mp hx).2) hmem fun hid => ((hqmem id).mp hid).1 rfl

/-! ## All turns -/

/-- Without cycles, among waiting nodes there is one to which none of them
branches. -/
theorem exists_free (h : Acyclic splits) {id : NodeId} (hid : id ∈ p) :
    ∃ x ∈ p, ∀ a ∈ p, ¬ BranchesTo splits a x := by
  obtain ⟨x, hx, hmin⟩ := h.wellFounded.has_min {x | x ∈ p} ⟨id, hid⟩
  exact ⟨x, hx, hmin⟩

/-- What the turns give for the nodes that wait: their splits, each after
those that branch to its source. -/
structure Ordered (splits : Table NodeId Cases) (p : Pending) (order : List NodeId) : Prop where
  mem_iff : ∀ id, id ∈ order ↔ id ∈ p ∧ id ∈ splits
  nodup : order.Nodup
  forward : order.Pairwise fun a b => ¬ BranchesTo splits b a
  no_loop : ∀ a ∈ order, ¬ BranchesTo splits a a

theorem ordered_nil (hp : p.isEmpty = true) : Ordered splits p [] :=
  ⟨by simp [Table.isEmpty_iff.mp hp], by simp, by simp, by simp⟩

/-- A node without a split leaves no trace. -/
theorem Ordered.skip {q : Pending} {id : NodeId} {order : List NodeId} (h : Ordered splits q order)
    (hq : ∀ x, x ∈ q ↔ x ≠ id ∧ x ∈ p) (hid : id ∉ splits) : Ordered splits p order := by
  refine ⟨fun x => ?_, h.nodup, h.forward, h.no_loop⟩
  rw [h.mem_iff, hq]
  constructor
  · exact fun ⟨⟨_, hp⟩, hs⟩ => ⟨hp, hs⟩
  · exact fun ⟨hp, hs⟩ => ⟨⟨fun he => hid (he ▸ hs), hp⟩, hs⟩

/-- A split to whose source nothing that waits branches may come first. -/
theorem Ordered.cons {q : Pending} {id : NodeId} {order : List NodeId} (h : Ordered splits q order)
    (hq : ∀ x, x ∈ q ↔ x ≠ id ∧ x ∈ p) (hid : id ∈ p) (hs : id ∈ splits)
    (hfree : ∀ a ∈ p, ¬ BranchesTo splits a id) : Ordered splits p (id :: order) := by
  have hin : ∀ x ∈ order, x ≠ id ∧ x ∈ p := fun x hx => (hq x).mp ((h.mem_iff x).mp hx).1
  refine ⟨fun x => ?_, ?_, ?_, ?_⟩
  · rw [List.mem_cons, h.mem_iff, hq]
    by_cases hx : x = id
    · simp [hx, hid, hs]
    · simp [hx]
  · exact List.nodup_cons.mpr ⟨fun hm => (hin id hm).1 rfl, h.nodup⟩
  · exact List.pairwise_cons.mpr ⟨fun x hx => hfree x (hin x hx).2, h.forward⟩
  · exact List.forall_mem_cons.mpr ⟨hfree id hid, h.no_loop⟩

/-- The turns go on for as long as a node is free, whatever room there is: with no turn left
either nothing waits any more, or what waits has a cycle. -/
inductive Turns (splits : Table NodeId Cases) : Pending → Except OrderFault (List NodeId) → Prop
  | ends {p : Pending} (nothing : p.isEmpty = true) : Turns splits p (.ok [])
  | stuck {p : Pending} (something : p.isEmpty = false)
      (hfind : p.toList.find? (·.2 == 0) = none) : Turns splits p (.error .cyclic)
  | skip {p : Pending} {id : NodeId} {n : Nat} {r : Except OrderFault (List NodeId)}
      (hfind : p.toList.find? (·.2 == 0) = some (id, n)) (hid : splits.get? id = none)
      (more : Turns splits (p.erase id) r) : Turns splits p r
  | take {p q : Pending} {id : NodeId} {n : Nat} {cases : Cases}
      {r : Except OrderFault (List NodeId)}
      (hfind : p.toList.find? (·.2 == 0) = some (id, n)) (hid : splits.get? id = some cases)
      (hq : cases.targets.foldlM settle (p.erase id) = .ok q) (more : Turns splits q r) :
      Turns splits p (r.map (id :: ·))
  | overdraw {p : Pending} {id : NodeId} {n : Nat} {cases : Cases} {fault : OrderFault}
      (hfind : p.toList.find? (·.2 == 0) = some (id, n)) (hid : splits.get? id = some cases)
      (hfault : cases.targets.foldlM settle (p.erase id) = .error fault) :
      Turns splits p (.error fault)

/-- With room for all that wait, the room is never used up. -/
theorem turns_takeTurns {room : Nat} (h : Waiting splits p) (hroom : p.size ≤ room) :
    Turns splits p (takeTurns splits room p) := by
  induction room generalizing p with
  | zero =>
    have hp : p.isEmpty = true := by
      simpa [Table.isEmpty, Table.size] using hroom
    rw [takeTurns, if_pos hp]
    exact .ends hp
  | succ room ih =>
    cases hfind : p.toList.find? (·.2 == 0) with
    | none =>
      simp only [takeTurns, hfind]
      cases hp : p.isEmpty with
      | true => exact .ends hp
      | false => exact .stuck hp hfind
    | some e =>
      obtain ⟨id, n⟩ := e
      obtain ⟨-, q, hq, hwait, -, hsize⟩ := h.turn hfind
      have ih := ih hwait (by omega)
      cases hcases : splits.get? id with
      | none =>
        rw [hcases] at hq
        obtain rfl : p.erase id = q := Except.ok.inj hq
        simp only [takeTurns, hfind, hcases]
        exact .skip hfind hcases ih
      | some cases =>
        rw [hcases] at hq
        have htake : takeTurns splits (room + 1) p = (takeTurns splits room q).map (id :: ·) := by
          simp only [takeTurns, hfind, hcases, show cases.targets.foldlM settle (p.erase id) =
            .ok q from hq, bind, Except.bind]
          cases takeTurns splits room q <;> rfl
        rw [htake]
        exact .take hfind hcases hq ih

/-- Where nothing is free, what waits has a cycle: without one some node that waits has no
owner that waits. -/
theorem Waiting.cyclic (h : Waiting splits p) (hp : p.isEmpty = false)
    (hfind : p.toList.find? (·.2 == 0) = none) : ¬ Acyclic splits := by
  intro hacyclic
  obtain ⟨id, hid⟩ := Table.exists_mem_of_not_isEmpty hp
  obtain ⟨x, hx, hfree⟩ := exists_free hacyclic hid
  obtain ⟨n, hn⟩ := Table.mem_iff.mp hx
  have hpos : n ≠ 0 := by
    simpa using List.find?_eq_none.mp hfind (x, n) (Table.get?_eq_some.mp hn)
  obtain ⟨a, ha, hab⟩ := exists_owner (Nat.pos_of_ne_zero (h.counted x n hn ▸ hpos))
  exact hfree a ha hab

/-- The turns end with an order, or at a cycle. -/
theorem Turns.spec {r : Except OrderFault (List NodeId)} (h : Turns splits p r)
    (hwait : Waiting splits p) :
    (∃ order, r = .ok order ∧ Ordered splits p order) ∨ (r = .error .cyclic ∧ ¬ Acyclic splits) := by
  induction h with
  | ends hp => exact Or.inl ⟨[], rfl, ordered_nil hp⟩
  | stuck hp hfind => exact Or.inr ⟨rfl, hwait.cyclic hp hfind⟩
  | skip hfind hid _ ih =>
    obtain ⟨-, q, hq, hwait, hqmem, -⟩ := hwait.turn hfind
    rw [hid] at hq
    obtain rfl := Except.ok.inj hq
    rcases ih hwait with ⟨order, hr, hord⟩ | hcyc
    · exact Or.inl ⟨order, hr, hord.skip hqmem (Table.not_mem_iff.mpr hid)⟩
    · exact Or.inr hcyc
  | take hfind hid hq _ ih =>
    obtain ⟨⟨hmem, hfree⟩, q, hq', hwait, hqmem, -⟩ := hwait.turn hfind
    rw [hid] at hq'
    obtain rfl := Except.ok.inj (hq.symm.trans hq')
    rcases ih hwait with ⟨order, rfl, hord⟩ | ⟨rfl, hcyc⟩
    · exact Or.inl ⟨_, rfl, hord.cons hqmem hmem (Table.mem_of_get? hid) hfree⟩
    · exact Or.inr ⟨rfl, hcyc⟩
  | overdraw hfind hid hfault =>
    obtain ⟨-, q, hq, -⟩ := hwait.turn hfind
    rw [hid] at hq
    cases hfault.symm.trans hq

end SplitOrder

section

open SplitOrder

/-- Splits get their turns one after the other until none is free, never fewer. -/
theorem turns_splitOrder (splits : Table NodeId Cases) :
    Turns splits (pending splits) (splitOrder splits) :=
  turns_takeTurns (waiting_pending splits) (Nat.le_refl _)

/-- Splits have an order, or they have a cycle. -/
theorem splitOrder_spec (splits : Table NodeId Cases) :
    (∃ order, splitOrder splits = .ok order ∧ Ordered splits (pending splits) order) ∨
      (splitOrder splits = .error .cyclic ∧ ¬ Acyclic splits) :=
  (turns_splitOrder splits).spec (waiting_pending splits)

end

/-- Splits without cycles have an order. -/
theorem exists_splitOrder {splits : Table NodeId Cases} (h : Acyclic splits) :
    ∃ order, splitOrder splits = .ok order ∧
      SplitOrder.Ordered splits (SplitOrder.pending splits) order :=
  (splitOrder_spec splits).resolve_right fun hc => hc.2 h

end StateGraph
