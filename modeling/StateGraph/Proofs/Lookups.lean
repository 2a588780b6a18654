-- What tables answer after a change, and how large they are.
import StateGraph.NodeId
import Mathlib.Data.List.Nodup
import Mathlib.Data.List.Perm.Subperm

namespace StateGraph

namespace Table

universe u v w

variable {κ : Type u} {ν : Type v} {μ : Type w} [Ord κ]

theorem contains_eq_false {t : Table κ ν} {k : κ} : t.contains k = false ↔ k ∉ t := by
  rw [← Bool.not_eq_true]
  exact Iff.rfl

theorem not_mem_iff {t : Table κ ν} {k : κ} : k ∉ t ↔ t.get? k = none := by
  rw [mem_iff, ← Option.isSome_iff_exists, Option.not_isSome_iff_eq_none]

@[simp]
theorem not_mem_empty (k : κ) : k ∉ (∅ : Table κ ν) := by simp [not_mem_iff]

theorem mem_of_get? {t : Table κ ν} {k : κ} {v : ν} (h : t.get? k = some v) : k ∈ t :=
  mem_iff.mpr ⟨v, h⟩

@[simp]
theorem length_keys (t : Table κ ν) : t.keys.length = t.size := by simp [keys, size]

section Lawful

variable [Std.LawfulEqOrd κ]

theorem mem_mapValues {t : Table κ ν} {f : κ → ν → μ} {k : κ} : k ∈ t.mapValues f ↔ k ∈ t := by
  rw [mem_iff, get?_mapValues, mem_iff]
  simp

theorem isEmpty_iff {t : Table κ ν} : t.isEmpty = true ↔ ∀ k, k ∉ t := by
  simp only [isEmpty, List.isEmpty_iff, List.eq_nil_iff_forall_not_mem, Prod.forall, not_mem_iff,
    get?_eq_none]

/-- A key stands in one entry only. -/
theorem toList_filter_key (t : Table κ ν) (k : κ) :
    (t.toList.filter fun e => compare k e.1 == .eq) = ((t.get? k).map (k, ·)).toList := by
  obtain ⟨es, h⟩ := t
  simp only [get?]
  induction es with
  | nil => rfl
  | cons a rest ih =>
    obtain ⟨ha, hrest⟩ := List.pairwise_cons.mp h
    by_cases hk : compare k a.1 = .eq
    · have hka := Std.LawfulEqOrd.eq_of_compare hk
      have hno : (rest.filter fun e => compare k e.1 == .eq) = [] := by
        refine List.filter_eq_nil_iff.mpr fun e he heq => ?_
        have := ha e he
        rw [← hka] at this
        simp [this] at heq
      rw [List.filter_cons_of_pos (by simpa using hk), hno,
        List.find?_cons_of_pos (by simpa using hk)]
      simp [hka]
    · rw [List.filter_cons_of_neg (by simpa using hk), ih hrest,
        List.find?_cons_of_neg (by simpa using hk)]

theorem exists_mem_of_not_isEmpty {t : Table κ ν} (h : t.isEmpty = false) : ∃ k, k ∈ t := by
  by_contra hno
  push Not at hno
  rw [isEmpty_iff.mpr hno] at h
  simp at h

theorem get?_filter_key {t : Table κ ν} {p : κ → Bool} {k : κ} :
    (t.filter fun k _ => p k).get? k = if p k then t.get? k else none := by
  rw [get?_filter]
  cases t.get? k <;> cases p k <;> simp

theorem insertAll_cons [Std.TransOrd κ] {t : Table κ ν} {e : κ × ν} {es : List (κ × ν)} :
    t.insertAll (e :: es) = (t.insert e.1 e.2).insertAll es := rfl

variable [DecidableEq κ]

theorem get?_erase {t : Table κ ν} {k k' : κ} :
    (t.erase k).get? k' = if k' = k then none else t.get? k' := by
  split
  · rename_i h
    rw [h, get?_erase_self]
  · rename_i h
    exact get?_erase_of_ne h

theorem mem_erase {t : Table κ ν} {k k' : κ} : k' ∈ t.erase k ↔ k' ≠ k ∧ k' ∈ t := by
  rw [mem_iff, get?_erase, mem_iff]
  by_cases h : k' = k <;> simp [h]

variable [Std.TransOrd κ]

theorem erase_of_not_mem {t : Table κ ν} {k : κ} (h : k ∉ t) : t.erase k = t := by
  refine ext_get? fun k' => ?_
  rw [get?_erase]
  split
  · rename_i he
    rw [he, not_mem_iff.mp h]
  · rfl

theorem get?_insert {t : Table κ ν} {k k' : κ} {v : ν} :
    (t.insert k v).get? k' = if k' = k then some v else t.get? k' := by
  split
  · rename_i h
    rw [h, get?_insert_self]
  · rename_i h
    exact get?_insert_of_ne v h

theorem mem_insert {t : Table κ ν} {k k' : κ} {v : ν} : k' ∈ t.insert k v ↔ k' = k ∨ k' ∈ t := by
  rw [mem_iff, get?_insert, mem_iff]
  by_cases h : k' = k <;> simp [h]

theorem insert_comm {t : Table κ ν} {k k' : κ} {v v' : ν} (h : k ≠ k') :
    (t.insert k' v').insert k v = (t.insert k v).insert k' v' := by
  refine ext_get? fun x => ?_
  simp only [get?_insert]
  by_cases hx : x = k <;> simp [hx, h]

theorem erase_insert {t : Table κ ν} {k : κ} {v : ν} (h : k ∉ t) : (t.insert k v).erase k = t := by
  refine ext_get? fun x => ?_
  simp only [get?_erase, get?_insert]
  by_cases hx : x = k
  · rw [hx, if_pos rfl, not_mem_iff.mp h]
  · simp [hx]

/-- A new entry stands beside those of the other keys. -/
theorem toList_insert_perm (t : Table κ ν) (k : κ) (v : ν) :
    (t.insert k v).toList.Perm ((k, v) :: (t.erase k).toList) := by
  have hold : ∀ e, e ∈ (t.erase k).toList ↔ e.1 ≠ k ∧ e ∈ t.toList := fun e => by
    rw [← get?_eq_some (k := e.1) (v := e.2), ← get?_eq_some (k := e.1) (v := e.2), get?_erase]
    by_cases he : e.1 = k <;> simp [he]
  refine (List.perm_ext_iff_of_nodup (.of_map _ (keys_nodup _)) (List.nodup_cons.mpr
    ⟨fun h => ((hold _).mp h).1 rfl, .of_map _ (keys_nodup _)⟩)).mpr fun e => ?_
  rw [List.mem_cons, hold, mem_toList_insert, Prod.ext_iff]

/-- An old entry stands beside those of the other keys. -/
theorem toList_perm_of_get? {t : Table κ ν} {k : κ} {v : ν} (h : t.get? k = some v) :
    t.toList.Perm ((k, v) :: (t.erase k).toList) := by
  have hsame : t.insert k v = t := ext_get? fun k' => by
    rw [get?_insert]
    split
    · rename_i he
      rw [he, h]
    · rfl
  have hperm := toList_insert_perm t k v
  rw [hsame] at hperm
  exact hperm

theorem mem_insertAll {t : Table κ ν} {es : List (κ × ν)} {k : κ} :
    k ∈ t.insertAll es ↔ k ∈ t ∨ k ∈ es.map (·.1) := by
  induction es generalizing t with
  | nil => simp [insertAll]
  | cons e es ih =>
    rw [insertAll_cons, ih, mem_insert, List.map_cons, List.mem_cons]
    tauto

omit [DecidableEq κ] [Std.LawfulEqOrd κ] in
/-- An entry above all others is placed after them. -/
theorem place_of_lt {es : List (κ × ν)} {k : κ} {v : ν} (h : ∀ e ∈ es, compare e.1 k = .lt) :
    place k v es = es ++ [(k, v)] := by
  induction es with
  | nil => rfl
  | cons e es ih =>
    obtain ⟨he, hes⟩ := List.forall_mem_cons.mp h
    simp only [place, Std.OrientedCmp.gt_of_lt he, ih hes, List.cons_append]

omit [DecidableEq κ] in
/-- Entries that ascend above all others come after them. -/
theorem toList_insertAll_of_ascending {t : Table κ ν} {es : List (κ × ν)}
    (h : (t.toList ++ es).Pairwise fun a b => compare a.1 b.1 = .lt) :
    (t.insertAll es).toList = t.toList ++ es := by
  induction es generalizing t with
  | nil => simp [insertAll]
  | cons e es ih =>
    have hlast : (t.insert e.1 e.2).toList = t.toList ++ [e] :=
      place_of_lt fun a ha => (List.pairwise_append.mp h).2.2 a ha e List.mem_cons_self
    rw [insertAll_cons, ih (by simpa [hlast] using h), hlast, List.append_assoc]
    rfl

end Lawful

/-- A table with fewer keys is smaller. -/
theorem size_lt [Std.LawfulEqOrd κ] {s : Table κ ν} {t : Table κ μ} {k : κ}
    (hsub : ∀ x ∈ s, x ∈ t) (hk : k ∈ t) (hks : k ∉ s) : s.size < t.size := by
  rw [← length_keys s, ← length_keys t]
  have hnd : (k :: s.keys).Nodup :=
    List.nodup_cons.mpr ⟨fun h => hks (mem_keys.mp h), s.keys_nodup⟩
  refine (hnd.subperm fun x hx => ?_).length_le
  rcases List.mem_cons.mp hx with rfl | hx
  · exact mem_keys.mpr hk
  · exact mem_keys.mpr (hsub x (mem_keys.mp hx))

end Table

end StateGraph
