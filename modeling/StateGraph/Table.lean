-- Tables: finite maps kept as lists with strictly ascending keys. A table
-- holds at most one value per key and is walked in key order, and two
-- tables that answer every lookup alike are equal.
namespace StateGraph

universe u v w

/-- A finite map. Its entries stand in strictly ascending key order. -/
structure Table (κ : Type u) (ν : Type v) [Ord κ] where
  toList : List (κ × ν)
  /-- Each key is below every later one, so no key stands twice. -/
  ascending : toList.Pairwise (fun a b => compare a.1 b.1 = .lt)

namespace Table

variable {κ : Type u} {ν : Type v} {μ : Type w} [Ord κ]

theorem eq_of_toList_eq {s t : Table κ ν} (h : s.toList = t.toList) : s = t := by
  cases s; cases t; cases h; rfl

instance [DecidableEq κ] [DecidableEq ν] : DecidableEq (Table κ ν) := fun s t =>
  decidable_of_iff (s.toList = t.toList) ⟨eq_of_toList_eq, congrArg toList⟩

/-! ## Reading -/

/-- The value at a key. -/
def get? (t : Table κ ν) (k : κ) : Option ν :=
  (t.toList.find? fun e => compare k e.1 == .eq).map (·.2)

/-- A key has a value. -/
def contains (t : Table κ ν) (k : κ) : Bool := (t.get? k).isSome

def keys (t : Table κ ν) : List κ := t.toList.map (·.1)

def size (t : Table κ ν) : Nat := t.toList.length

def isEmpty (t : Table κ ν) : Bool := t.toList.isEmpty

instance : Membership κ (Table κ ν) := ⟨fun t k => t.contains k = true⟩

instance (k : κ) (t : Table κ ν) : Decidable (k ∈ t) :=
  inferInstanceAs (Decidable (t.contains k = true))

theorem contains_iff {t : Table κ ν} {k : κ} : t.contains k = true ↔ ∃ v, t.get? k = some v := by
  simp [contains, Option.isSome_iff_exists]

theorem mem_iff {t : Table κ ν} {k : κ} : k ∈ t ↔ ∃ v, t.get? k = some v := contains_iff

theorem keys_ascending (t : Table κ ν) : t.keys.Pairwise (fun a b => compare a b = .lt) :=
  List.pairwise_map.mpr t.ascending

/-! ## Building -/

def empty : Table κ ν := ⟨[], .nil⟩

instance : EmptyCollection (Table κ ν) := ⟨empty⟩

instance : Inhabited (Table κ ν) := ⟨empty⟩

/-- The entries that pass a test. -/
def filter (p : κ → ν → Bool) (t : Table κ ν) : Table κ ν :=
  ⟨t.toList.filter fun e => p e.1 e.2, t.ascending.filter _⟩

/-- Every value replaced by its image under a function that knows its key. -/
def mapValues (f : κ → ν → μ) (t : Table κ ν) : Table κ μ :=
  ⟨t.toList.map fun e => (e.1, f e.1 e.2), List.pairwise_map.mpr t.ascending⟩

/-- The table without a key. -/
def erase (t : Table κ ν) (k : κ) : Table κ ν := t.filter fun k' _ => compare k k' != .eq

/-- Puts an entry at its place in an ascending list, in the stead of an
older entry of the same key. -/
def place (k : κ) (v : ν) : List (κ × ν) → List (κ × ν)
  | [] => [(k, v)]
  | e :: rest =>
    match compare k e.1 with
    | .lt => (k, v) :: e :: rest
    | .eq => (k, v) :: rest
    | .gt => e :: place k v rest

theorem mem_place {k : κ} {v : ν} {es : List (κ × ν)} {e : κ × ν} :
    e ∈ place k v es → e = (k, v) ∨ e ∈ es := by
  induction es with
  | nil => simp [place]
  | cons a rest ih =>
    unfold place
    split
    · simp
    · simp only [List.mem_cons]
      exact fun h => h.imp id .inr
    · simp only [List.mem_cons]
      exact fun h => h.elim (.inr ∘ .inl) fun h => (ih h).imp id .inr

/-! ## Lookups settle a table -/

@[simp]
theorem get?_empty (k : κ) : (∅ : Table κ ν).get? k = none := rfl

variable [Std.LawfulEqOrd κ]

theorem get?_eq_some {t : Table κ ν} {k : κ} {v : ν} :
    t.get? k = some v ↔ (k, v) ∈ t.toList := by
  obtain ⟨es, h⟩ := t
  simp only [get?]
  induction es with
  | nil => simp
  | cons a rest ih =>
    obtain ⟨ha, hrest⟩ := List.pairwise_cons.mp h
    by_cases hk : compare k a.1 = .eq
    · have := Std.LawfulEqOrd.eq_of_compare hk
      subst this
      have hno : (a.1, v) ∉ rest := fun hm => by simpa using ha _ hm
      simp only [List.find?_cons, hk, BEq.rfl, Option.map_some, Option.some.injEq, List.mem_cons]
      refine ⟨fun h => .inl (by rw [← h]), fun h => ?_⟩
      rcases h with h | h
      · rw [← h]
      · exact absurd h hno
    · have hne : (k, v) ≠ a := fun he => hk (by simp [← he])
      simp only [List.mem_cons, hne, false_or]
      rw [← ih hrest, List.find?_cons_of_neg (by simpa using hk)]

theorem get?_eq_none {t : Table κ ν} {k : κ} : t.get? k = none ↔ ∀ v, (k, v) ∉ t.toList := by
  rw [Option.eq_none_iff_forall_ne_some]
  simp only [ne_eq, get?_eq_some]

theorem mem_keys {t : Table κ ν} {k : κ} : k ∈ t.keys ↔ k ∈ t := by
  simp [keys, mem_iff, get?_eq_some]

theorem keys_nodup (t : Table κ ν) : t.keys.Nodup :=
  t.keys_ascending.imp fun h he => by subst he; simp at h

theorem get?_filter {t : Table κ ν} {p : κ → ν → Bool} {k : κ} :
    (t.filter p).get? k = (t.get? k).filter (p k) := by
  refine Option.ext fun w => ?_
  simp [get?_eq_some, filter, Option.filter_eq_some_iff]

theorem get?_mapValues {t : Table κ ν} {f : κ → ν → μ} {k : κ} :
    (t.mapValues f).get? k = (t.get? k).map (f k) := by
  refine Option.ext fun w => ?_
  simp only [get?_eq_some, mapValues, List.mem_map, Option.map_eq_some_iff, Prod.mk.injEq,
    Prod.exists]
  constructor
  · rintro ⟨_, v, hm, rfl, rfl⟩
    exact ⟨v, hm, rfl⟩
  · rintro ⟨v, hm, rfl⟩
    exact ⟨k, v, hm, rfl, rfl⟩

@[simp]
theorem get?_erase_self (t : Table κ ν) (k : κ) : (t.erase k).get? k = none := by
  simp [erase, get?_filter]

theorem get?_erase_of_ne {t : Table κ ν} {k k' : κ} (h : k' ≠ k) :
    (t.erase k).get? k' = t.get? k' := by
  have hk : compare k k' ≠ .eq := fun he => h (Std.LawfulEqOrd.eq_of_compare he).symm
  refine Option.ext fun w => ?_
  simp [erase, get?_filter, Option.filter_eq_some_iff, hk]

variable [Std.TransOrd κ]

/-- Two tables that answer every lookup alike are equal. -/
theorem ext_get? {s t : Table κ ν} (h : ∀ k, s.get? k = t.get? k) : s = t := by
  have hmem : ∀ e, e ∈ s.toList ↔ e ∈ t.toList := fun e => by
    rw [← get?_eq_some (k := e.1) (v := e.2), ← get?_eq_some (k := e.1) (v := e.2), h]
  have hnodup : ∀ t : Table κ ν, t.toList.Nodup := fun t =>
    t.ascending.imp fun h he => by subst he; simp at h
  refine eq_of_toList_eq (List.Perm.eq_of_pairwise ?_ s.ascending t.ascending
    ((List.perm_ext_iff_of_nodup (hnodup s) (hnodup t)).mpr hmem))
  intro a b _ _ hab hba
  exact absurd hba (Std.OrientedCmp.not_lt_of_lt hab)

theorem place_ascending (k : κ) (v : ν) {es : List (κ × ν)}
    (h : es.Pairwise (fun a b => compare a.1 b.1 = .lt)) :
    (place k v es).Pairwise (fun a b => compare a.1 b.1 = .lt) := by
  induction es with
  | nil => simp [place]
  | cons a rest ih =>
    obtain ⟨ha, hrest⟩ := List.pairwise_cons.mp h
    unfold place
    split
    · rename_i hk
      refine List.pairwise_cons.mpr ⟨fun b hb => ?_, h⟩
      rcases List.mem_cons.mp hb with rfl | hb
      · exact hk
      · exact Std.TransCmp.lt_trans hk (ha b hb)
    · rename_i hk
      have hk := Std.LawfulEqOrd.eq_of_compare hk
      exact List.pairwise_cons.mpr ⟨fun b hb => by simpa [hk] using ha b hb, hrest⟩
    · rename_i hk
      refine List.pairwise_cons.mpr ⟨fun b hb => ?_, ih hrest⟩
      rcases mem_place hb with rfl | hb
      · exact Std.OrientedCmp.lt_of_gt hk
      · exact ha b hb

/-! ## Writing -/

/-- The table with a key's value set. -/
def insert (t : Table κ ν) (k : κ) (v : ν) : Table κ ν :=
  ⟨place k v t.toList, place_ascending k v t.ascending⟩

/-- Sets values one by one: the last value of a key stays. -/
def insertAll (t : Table κ ν) (es : List (κ × ν)) : Table κ ν :=
  es.foldl (fun t e => t.insert e.1 e.2) t

/-- The table of a list of entries: the last value of a key stays. -/
def ofList (es : List (κ × ν)) : Table κ ν := insertAll ∅ es

theorem mem_toList_insert {t : Table κ ν} {k k' : κ} {v v' : ν} :
    (k', v') ∈ (t.insert k v).toList ↔ (k' = k ∧ v' = v) ∨ (k' ≠ k ∧ (k', v') ∈ t.toList) := by
  obtain ⟨es, h⟩ := t
  simp only [insert]
  induction es with
  | nil => simp [place]
  | cons a rest ih =>
    obtain ⟨ha, hrest⟩ := List.pairwise_cons.mp h
    have ih := ih hrest
    unfold place
    split
    · rename_i hk
      have hno : ∀ w, (k, w) ∉ a :: rest := fun w hw => by
        rcases List.mem_cons.mp hw with he | hw
        · simp [← he] at hk
        · simpa using Std.TransCmp.lt_trans hk (ha _ hw)
      grind
    · rename_i hk
      have hk := Std.LawfulEqOrd.eq_of_compare hk
      have hno : ∀ w, (k, w) ∉ rest := fun w hw => by
        have := ha _ hw
        simp [hk] at this
      grind
    · rename_i hk
      have hne : a.1 ≠ k := fun he => by simp [he] at hk
      grind

@[simp]
theorem get?_insert_self (t : Table κ ν) (k : κ) (v : ν) : (t.insert k v).get? k = some v :=
  get?_eq_some.mpr (mem_toList_insert.mpr (.inl ⟨rfl, rfl⟩))

theorem get?_insert_of_ne {t : Table κ ν} {k k' : κ} (v : ν) (h : k' ≠ k) :
    (t.insert k v).get? k' = t.get? k' := by
  refine Option.ext fun w => ?_
  simp [get?_eq_some, mem_toList_insert, h]

/-- Setting all entries of `s` makes `s` answer first. -/
theorem get?_insertAll_toList (t s : Table κ ν) (k : κ) :
    (t.insertAll s.toList).get? k = (s.get? k).or (t.get? k) := by
  obtain ⟨es, h⟩ := s
  simp only [insertAll]
  induction es generalizing t with
  | nil => simp [get?]
  | cons a rest ih =>
    obtain ⟨ha, hrest⟩ := List.pairwise_cons.mp h
    rw [List.foldl_cons, ih _ hrest]
    by_cases hk : k = a.1
    · subst hk
      have hnone : (⟨rest, hrest⟩ : Table κ ν).get? a.1 = none :=
        get?_eq_none.mpr fun v hv => by simpa using ha _ hv
      rw [hnone, Option.none_or, get?_insert_self]
      simp [get?]
    · have hne : compare k a.1 ≠ .eq := fun he => hk (Std.LawfulEqOrd.eq_of_compare he)
      rw [get?_insert_of_ne _ hk]
      simp [get?, List.find?_cons_of_neg, hne]

end Table

/-! ## Sets -/

/-- A finite set, as a table without values. -/
abbrev SortedSet (κ : Type u) [Ord κ] := Table κ Unit

namespace SortedSet

variable {κ : Type u} [Ord κ] [Std.LawfulEqOrd κ] [Std.TransOrd κ]

/-- The set of the members of a list. -/
def ofList (xs : List κ) : SortedSet κ := Table.ofList (xs.map fun x => (x, ()))

theorem mem_insert {s : SortedSet κ} {x y : κ} : y ∈ s.insert x () ↔ y = x ∨ y ∈ s := by
  by_cases h : y = x
  · subst h; simp [Table.mem_iff]
  · simp [Table.mem_iff, Table.get?_insert_of_ne _ h, h]

theorem mem_insertAll {s : SortedSet κ} {xs : List κ} {y : κ} :
    y ∈ s.insertAll (xs.map fun x => (x, ())) ↔ y ∈ s ∨ y ∈ xs := by
  induction xs generalizing s with
  | nil => simp [Table.insertAll]
  | cons x xs ih =>
    have ih := ih (s := s.insert x ())
    simp only [Table.insertAll, List.map_cons, List.foldl_cons] at ih ⊢
    rw [ih, mem_insert, List.mem_cons, or_left_comm, or_assoc]

theorem mem_ofList {xs : List κ} {y : κ} : y ∈ ofList xs ↔ y ∈ xs := by
  rw [ofList, Table.ofList, mem_insertAll]
  simp [Table.mem_iff]

/-- Two sets with the same members are equal. -/
theorem ext_mem {s t : SortedSet κ} (h : ∀ x, x ∈ s ↔ x ∈ t) : s = t := by
  refine Table.ext_get? fun k => Option.ext fun _ => ?_
  have hk := h k
  simp only [Table.mem_iff] at hk
  exact ⟨fun hs => (hk.mp ⟨_, hs⟩).elim fun _ h => h, fun ht => (hk.mpr ⟨_, ht⟩).elim fun _ h => h⟩

end SortedSet

end StateGraph
