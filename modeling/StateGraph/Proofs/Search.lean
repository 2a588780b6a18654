-- A search finds exactly what paths lead to. It ends, since a node lets its neighbours wait
-- only when it is met for the first time; and by then nothing that a path leads to can have
-- been missed, since it would still wait. How many nodes a search may take is given, but it
-- is always enough: the search ends because nothing waits any more.
import StateGraph.Graph.Traversal
import StateGraph.Proofs.Lookups
import Mathlib.Logic.Relation

namespace StateGraph

open Relation (ReflTransGen)

/-! ## What may wait -/

/-- After a node has been met its neighbours wait, but for such as were met already, and
nothing that has waited is forgotten. -/
structure Pushes (push : NodeId → SortedSet NodeId → List NodeId → List NodeId)
    (neighbours : NodeId → List NodeId) : Prop where
  rest : ∀ {id met rest y}, y ∈ rest → y ∈ push id met rest
  neighbour : ∀ {id met rest y}, y ∈ neighbours id → y ∈ met ∨ y ∈ push id met rest
  only : ∀ {id met rest y}, y ∈ push id met rest → y ∈ rest ∨ y ∈ neighbours id
  length_le : ∀ id met rest, (push id met rest).length ≤ rest.length + (neighbours id).length

theorem pushes_enqueue (neighbours : NodeId → List NodeId) :
    Pushes (enqueue neighbours) neighbours where
  rest := fun hy => List.mem_append_left _ hy
  neighbour := by
    intro id met rest y hy
    by_cases hmet : y ∈ met
    · exact Or.inl hmet
    · have hkept : y ∈ (neighbours id).filter fun t => !met.contains t :=
        List.mem_filter.mpr ⟨hy, by simp [Table.contains_eq_false.mpr hmet]⟩
      exact Or.inr (List.mem_append_right _ hkept)
  only := fun hy => (List.mem_append.mp hy).imp_right List.mem_of_mem_filter
  length_le := by
    intro id met rest
    unfold enqueue
    rw [List.length_append]
    exact Nat.add_le_add_left (List.length_filter_le _ _) _

theorem pushes_stack (neighbours : NodeId → List NodeId) :
    Pushes (stack neighbours) neighbours where
  rest := fun hy => List.mem_append_right _ hy
  neighbour := fun hy => Or.inr (List.mem_append_left _ (List.mem_reverse.mpr hy))
  only := fun hy => (List.mem_append.mp hy).symm.imp_right List.mem_reverse.mp
  length_le := by
    intro id met rest
    simp [stack, Nat.add_comm]

variable {push : NodeId → SortedSet NodeId → List NodeId → List NodeId}
  {neighbours : NodeId → List NodeId} {steps : Nat} {waiting start all : List NodeId}
  {met final : SortedSet NodeId} {goal : NodeId}

/-! ## Searches without a bound -/

/-- A search goes on for as long as a node waits, and ends with what it has met by then. -/
inductive Searches (push : NodeId → SortedSet NodeId → List NodeId → List NodeId) :
    List NodeId → SortedSet NodeId → SortedSet NodeId → Prop
  | ends {met : SortedSet NodeId} : Searches push [] met met
  | pass {id : NodeId} {rest : List NodeId} {met final : SortedSet NodeId} (hid : id ∈ met)
      (more : Searches push rest met final) : Searches push (id :: rest) met final
  | meet {id : NodeId} {rest : List NodeId} {met final : SortedSet NodeId} (hid : id ∉ met)
      (more : Searches push (push id (met.insert id ()) rest) (met.insert id ()) final) :
      Searches push (id :: rest) met final

/-- A search for a goal ends when it takes the goal, or when nothing waits any more. -/
inductive SearchesFor (push : NodeId → SortedSet NodeId → List NodeId → List NodeId)
    (goal : NodeId) : List NodeId → SortedSet NodeId → Bool → Prop
  | ends {met : SortedSet NodeId} : SearchesFor push goal [] met false
  | found {rest : List NodeId} {met : SortedSet NodeId} :
      SearchesFor push goal (goal :: rest) met true
  | pass {id : NodeId} {rest : List NodeId} {met : SortedSet NodeId} {found : Bool}
      (hgoal : id ≠ goal) (hid : id ∈ met) (more : SearchesFor push goal rest met found) :
      SearchesFor push goal (id :: rest) met found
  | meet {id : NodeId} {rest : List NodeId} {met : SortedSet NodeId} {found : Bool}
      (hgoal : id ≠ goal) (hid : id ∉ met)
      (more : SearchesFor push goal (push id (met.insert id ()) rest) (met.insert id ()) found) :
      SearchesFor push goal (id :: rest) met found

theorem Searches.mem_of_mem {x : NodeId} (h : Searches push waiting met final) (hx : x ∈ met) :
    x ∈ final := by
  induction h with
  | ends => exact hx
  | pass hid more ih => exact ih hx
  | meet hid more ih => exact ih (SortedSet.mem_insert.mpr (Or.inr hx))

/-- Whatever is met is led to. -/
theorem Searches.exists_path (h : Searches push waiting met final) (hp : Pushes push neighbours)
    {y : NodeId} (hy : y ∈ final) :
    y ∈ met ∨ ∃ x ∈ waiting, ReflTransGen (fun a b => b ∈ neighbours a) x y := by
  induction h with
  | ends => exact Or.inl hy
  | pass hid more ih =>
    refine (ih hy).imp_right ?_
    rintro ⟨x, hx, hpath⟩
    exact ⟨x, List.mem_cons_of_mem _ hx, hpath⟩
  | meet hid more ih =>
    rcases ih hy with hin | ⟨x, hx, hpath⟩
    · rcases SortedSet.mem_insert.mp hin with rfl | hin
      · exact Or.inr ⟨y, List.mem_cons_self, .refl⟩
      · exact Or.inl hin
    · rcases hp.only hx with hx | hx
      · exact Or.inr ⟨x, List.mem_cons_of_mem _ hx, hpath⟩
      · exact Or.inr ⟨_, List.mem_cons_self, .head hx hpath⟩

/-- The neighbours of a node that was met were met as well, or wait. -/
def Closing (neighbours : NodeId → List NodeId) (waiting : List NodeId) (met : SortedSet NodeId) :
    Prop :=
  ∀ x ∈ met, ∀ y ∈ neighbours x, y ∈ met ∨ y ∈ waiting

theorem Closing.pass {id : NodeId} {rest : List NodeId} (h : Closing neighbours (id :: rest) met)
    (hid : id ∈ met) : Closing neighbours rest met := by
  intro x hx y hy
  rcases h x hx y hy with hy | hy
  · exact Or.inl hy
  · rcases List.mem_cons.mp hy with rfl | hy
    · exact Or.inl hid
    · exact Or.inr hy

theorem Closing.meet {id : NodeId} {rest : List NodeId} (h : Closing neighbours (id :: rest) met)
    (hp : Pushes push neighbours) :
    Closing neighbours (push id (met.insert id ()) rest) (met.insert id ()) := by
  intro x hx y hy
  rcases SortedSet.mem_insert.mp hx with rfl | hx
  · exact hp.neighbour hy
  · rcases h x hx y hy with hy | hy
    · exact Or.inl (SortedSet.mem_insert.mpr (Or.inr hy))
    · rcases List.mem_cons.mp hy with rfl | hy
      · exact Or.inl (SortedSet.mem_insert.mpr (Or.inl rfl))
      · exact Or.inr (hp.rest hy)

/-- When nothing waits any more, all that has waited was met, and all neighbours of what
was met. -/
theorem Searches.closed (h : Searches push waiting met final) (hp : Pushes push neighbours)
    (hclosing : Closing neighbours waiting met) :
    (∀ x ∈ waiting, x ∈ final) ∧ Closing neighbours [] final := by
  induction h with
  | ends => exact ⟨fun x hx => (by cases hx), hclosing⟩
  | pass hid more ih =>
    obtain ⟨hmet, hclosed⟩ := ih (hclosing.pass hid)
    exact ⟨List.forall_mem_cons.mpr ⟨more.mem_of_mem hid, hmet⟩, hclosed⟩
  | meet hid more ih =>
    obtain ⟨hmet, hclosed⟩ := ih (hclosing.meet hp)
    have hself := more.mem_of_mem (SortedSet.mem_insert.mpr (Or.inl rfl))
    exact ⟨List.forall_mem_cons.mpr ⟨hself, fun x hx => hmet x (hp.rest hx)⟩, hclosed⟩

/-- A search meets exactly what paths from the start lead to. -/
theorem Searches.mem_iff (h : Searches push start ∅ final) (hp : Pushes push neighbours)
    {y : NodeId} :
    y ∈ final ↔ ∃ x ∈ start, ReflTransGen (fun a b => b ∈ neighbours a) x y := by
  constructor
  · intro hy
    exact (h.exists_path hp hy).resolve_left (Table.not_mem_empty y)
  · rintro ⟨x, hx, hpath⟩
    obtain ⟨hmet, hclosed⟩ := h.closed hp fun x hx => absurd hx (Table.not_mem_empty x)
    induction hpath with
    | refl => exact hmet x hx
    | tail _ hstep ih => exact (hclosed _ ih _ hstep).resolve_right List.not_mem_nil

/-- To give up at the goal is to search on and to see whether it was met. -/
theorem SearchesFor.iff_mem {found : Bool} (h : SearchesFor push goal waiting met found)
    (hfull : Searches push waiting met final) (hgoal : goal ∉ met) :
    found = true ↔ goal ∈ final := by
  induction h with
  | ends =>
    cases hfull
    exact iff_of_false Bool.false_ne_true hgoal
  | found =>
    cases hfull with
    | pass hid => exact absurd hid hgoal
    | meet _ hrest =>
      exact iff_of_true rfl (hrest.mem_of_mem (SortedSet.mem_insert.mpr (Or.inl rfl)))
  | pass hne hid _ ih =>
    cases hfull with
    | pass _ hrest => exact ih hrest hgoal
    | meet hno => exact absurd hid hno
  | meet hne hid _ ih =>
    cases hfull with
    | pass hin => exact absurd hin hid
    | meet _ hrest =>
      refine ih hrest fun hmem => ?_
      rcases SortedSet.mem_insert.mp hmem with rfl | hmem
      · exact hne rfl
      · exact hgoal hmem

/-! ## Steps enough -/

/-- How many nodes are still to wait at most: the neighbours of all nodes not met yet. -/
def toCome (neighbours : NodeId → List NodeId) (all : List NodeId) (met : SortedSet NodeId) : Nat :=
  ((all.filter fun id => !met.contains id).flatMap neighbours).length

theorem toCome_empty (neighbours : NodeId → List NodeId) (all : List NodeId) :
    toCome neighbours all ∅ = (all.flatMap neighbours).length := by
  have hall : (all.filter fun id => !(∅ : SortedSet NodeId).contains id) = all :=
    List.filter_eq_self.mpr fun _ _ => rfl
  rw [toCome, hall]

theorem toCome_cons (neighbours : NodeId → List NodeId) (x : NodeId) (all : List NodeId)
    (met : SortedSet NodeId) : toCome neighbours (x :: all) met =
      (if x ∈ met then 0 else (neighbours x).length) + toCome neighbours all met := by
  unfold toCome
  rw [List.filter_cons]
  by_cases hx : x ∈ met
  · have hno : ¬ (!met.contains x) = true := by simp [Table.contains_iff, Table.mem_iff.mp hx]
    rw [if_neg hno, if_pos hx, Nat.zero_add]
  · have hyes : (!met.contains x) = true := by simp [Table.contains_eq_false.mpr hx]
    rw [if_pos hyes, if_neg hx, List.flatMap_cons, List.length_append]

theorem toCome_insert_le (neighbours : NodeId → List NodeId) (id : NodeId) :
    toCome neighbours all (met.insert id ()) ≤ toCome neighbours all met := by
  induction all with
  | nil => exact Nat.le_refl _
  | cons x all ih =>
    rw [toCome_cons, toCome_cons]
    refine Nat.add_le_add ?_ ih
    by_cases hx : x ∈ met
    · rw [if_pos (SortedSet.mem_insert.mpr (Or.inr hx))]
      exact Nat.zero_le _
    · rw [if_neg hx]
      split
      · exact Nat.zero_le _
      · exact Nat.le_refl _

/-- A node that is met now lets its neighbours wait, and they are not to come any more. -/
theorem toCome_insert (neighbours : NodeId → List NodeId) {id : NodeId} (hall : id ∈ all)
    (hid : id ∉ met) :
    toCome neighbours all (met.insert id ()) + (neighbours id).length ≤
      toCome neighbours all met := by
  induction all with
  | nil => cases hall
  | cons x all ih =>
    rw [toCome_cons, toCome_cons]
    by_cases hx : x = id
    · have htail : toCome neighbours all (met.insert id ()) ≤ toCome neighbours all met :=
        toCome_insert_le neighbours id
      rw [hx, if_pos (SortedSet.mem_insert.mpr (Or.inl rfl)), if_neg hid]
      omega
    · have hsame : x ∈ met.insert id () ↔ x ∈ met := by simp [SortedSet.mem_insert, hx]
      have htail := ih ((List.mem_cons.mp hall).resolve_left (Ne.symm hx))
      simp only [hsame]
      omega

/-- Some steps are enough for all nodes that wait or are still to. -/
structure Enough (neighbours : NodeId → List NodeId) (all : List NodeId) (steps : Nat)
    (waiting : List NodeId) (met : SortedSet NodeId) : Prop where
  known : ∀ x ∈ waiting, x ∈ all
  length_le : waiting.length + toCome neighbours all met ≤ steps

theorem enough_start (hstart : ∀ x ∈ start, x ∈ all)
    (hsteps : searchSteps neighbours all start ≤ steps) : Enough neighbours all steps start ∅ :=
  ⟨hstart, (toCome_empty neighbours all).symm ▸ hsteps⟩

namespace Enough

variable {id : NodeId} {rest : List NodeId}

theorem eq_nil (h : Enough neighbours all 0 waiting met) : waiting = [] := by
  have := h.length_le
  exact List.eq_nil_of_length_eq_zero (by omega)

theorem pass (h : Enough neighbours all (steps + 1) (id :: rest) met) :
    Enough neighbours all steps rest met := by
  have hlength := h.length_le
  rw [List.length_cons] at hlength
  exact ⟨(List.forall_mem_cons.mp h.known).2, by omega⟩

theorem meet (h : Enough neighbours all (steps + 1) (id :: rest) met)
    (hp : Pushes push neighbours) (hall : ∀ x ∈ all, ∀ y ∈ neighbours x, y ∈ all)
    (hid : id ∉ met) :
    Enough neighbours all steps (push id (met.insert id ()) rest) (met.insert id ()) := by
  obtain ⟨hin, hrest⟩ := List.forall_mem_cons.mp h.known
  have hlength := h.length_le
  have hpushed := hp.length_le id (met.insert id ()) rest
  have hcome := toCome_insert neighbours hin hid
  rw [List.length_cons] at hlength
  exact ⟨fun x hx => (hp.only hx).elim (hrest x) (hall id hin x), by omega⟩

end Enough

/-- With steps enough a search ends by itself: nothing waits any more. -/
theorem Pushes.searches (hp : Pushes push neighbours)
    (hall : ∀ x ∈ all, ∀ y ∈ neighbours x, y ∈ all) (h : Enough neighbours all steps waiting met) :
    Searches push waiting met (search push steps waiting met) := by
  fun_induction search push steps waiting met with
  | case1 waiting met =>
    obtain rfl := h.eq_nil
    exact .ends
  | case2 steps met => exact .ends
  | case3 steps id rest met hid ih => exact .pass hid (ih h.pass)
  | case4 steps id rest met hid ih => exact .meet hid (ih (h.meet hp hall hid))

/-- So does a search for a goal, unless it takes the goal before. -/
theorem Pushes.searchesFor (hp : Pushes push neighbours)
    (hall : ∀ x ∈ all, ∀ y ∈ neighbours x, y ∈ all) (h : Enough neighbours all steps waiting met) :
    SearchesFor push goal waiting met (searchFor push goal steps waiting met) := by
  fun_induction searchFor push goal steps waiting met with
  | case1 waiting met =>
    obtain rfl := h.eq_nil
    exact .ends
  | case2 steps met => exact .ends
  | case3 steps rest met => exact .found
  | case4 steps id rest met hne hid ih => exact .pass hne hid (ih h.pass)
  | case5 steps id rest met hne hid ih => exact .meet hne hid (ih (h.meet hp hall hid))

end StateGraph
