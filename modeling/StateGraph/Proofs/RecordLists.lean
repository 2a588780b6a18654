-- Tables out of lists of records. A list whose keys are distinct loses nothing in
-- its table, and records put in one at a time make the table of all of them.
import StateGraph.Snapshot.Basic
import StateGraph.Proofs.Runs

namespace StateGraph

universe u v w

namespace Table

variable {κ : Type u} {ν : Type v} [Ord κ] [Std.LawfulEqOrd κ] [Std.TransOrd κ] [DecidableEq κ]
variable {es es' : List (κ × ν)}

/-- Entries with distinct keys all stay when they are put in. -/
theorem get?_insertAll (hnd : (es.map (·.1)).Nodup) {t : Table κ ν} {k : κ} {v : ν} :
    (t.insertAll es).get? k = some v ↔
      (k, v) ∈ es ∨ t.get? k = some v ∧ k ∉ es.map (·.1) := by
  induction es generalizing t with
  | nil => simp [insertAll]
  | cons e es ih =>
    obtain ⟨hno, hnd⟩ := List.nodup_cons.mp hnd
    rw [insertAll_cons, ih hnd, get?_insert]
    by_cases hk : k = e.1
    · subst hk
      have hentry : (e.1, v) ∉ es := fun h => hno (List.mem_map.mpr ⟨_, h, rfl⟩)
      have he : (e.1, v) = e ↔ e.2 = v := by
        refine ⟨fun h => by rw [← h], fun h => by rw [← h]⟩
      simp [hno, hentry, he]
    · have he : (k, v) ≠ e := fun h => hk (congrArg (·.1) h)
      simp only [hk, if_false, List.mem_cons, he, false_or, List.map_cons]

theorem get?_ofList (hnd : (es.map (·.1)).Nodup) {k : κ} {v : ν} :
    (ofList es).get? k = some v ↔ (k, v) ∈ es := by
  rw [ofList, get?_insertAll hnd]
  simp

omit [DecidableEq κ] in
/-- A table is the table of its own entries. -/
theorem ofList_toList (t : Table κ ν) : ofList t.toList = t := by
  refine ext_get? fun k => ?_
  rw [ofList, get?_insertAll_toList, get?_empty, Option.or_none]

theorem mem_ofList {k : κ} : k ∈ ofList es ↔ k ∈ es.map (·.1) := by
  rw [ofList, mem_insertAll]
  simp

theorem toList_ofList_perm (hnd : (es.map (·.1)).Nodup) : (ofList es).toList.Perm es := by
  have hentries : (ofList es).toList.Nodup := List.Nodup.of_map _ (ofList es).keys_nodup
  refine (List.perm_ext_iff_of_nodup hentries (hnd.of_map _)).mpr fun e => ?_
  rw [← get?_ofList hnd, get?_eq_some]

/-- In which order distinct entries come makes no difference. -/
theorem ofList_eq_of_perm (hnd : (es.map (·.1)).Nodup) (h : es'.Perm es) :
    ofList es' = ofList es := by
  have hnd' : (es'.map (·.1)).Nodup := (h.map _).nodup_iff.mpr hnd
  refine ext_get? fun k => Option.ext fun v => ?_
  rw [get?_ofList hnd, get?_ofList hnd', h.mem_iff]

/-- A table is as long as its list exactly if no key is listed twice. -/
theorem size_ofList : (ofList es).size = es.length ↔ (es.map (·.1)).Nodup := by
  constructor
  · intro hsize
    have hperm : (ofList es).keys.Perm (es.map (·.1)) := by
      refine ((keys_nodup (ofList es)).subperm fun k hk => ?_).perm_of_length_le ?_
      · exact mem_ofList.mp (mem_keys.mp hk)
      · rw [length_keys, List.length_map]
        exact Nat.le_of_eq hsize.symm
    exact hperm.nodup_iff.mp (keys_nodup _)
  · exact fun hnd => (toList_ofList_perm hnd).length_eq

end Table

/-! ## Lists in order -/

variable {ρ : Type w} {κ : Type u} {ν : Type v} [Ord κ] [Std.LawfulEqOrd κ] [Std.TransOrd κ]

/-- A list in the order of a key. -/
def sortedBy (key : ρ → κ) (rs : List ρ) : List ρ :=
  rs.mergeSort fun a b => (compare (key a) (key b)).isLE

omit [Std.LawfulEqOrd κ] [Std.TransOrd κ] in
theorem sortedBy_perm (key : ρ → κ) (rs : List ρ) : (sortedBy key rs).Perm rs :=
  List.mergeSort_perm ..

/-- A rearrangement in which the keys go up is the list in order. -/
theorem eq_sortedBy {key : ρ → κ} {rs rs' : List ρ} (hperm : rs'.Perm rs)
    (hup : rs'.Pairwise fun a b => compare (key a) (key b) = .lt) : rs' = sortedBy key rs := by
  have hsorted : (sortedBy key rs).Pairwise fun a b => (compare (key a) (key b)).isLE := by
    refine List.pairwise_mergeSort (fun a b c => Std.TransCmp.isLE_trans) (fun a b => ?_) rs
    have hswap : compare (key b) (key a) = (compare (key a) (key b)).swap :=
      Std.OrientedCmp.eq_swap
    rw [hswap]
    cases compare (key a) (key b) <;> rfl
  have hnd : (rs'.map key).Nodup := List.pairwise_map.mpr <| hup.imp fun h he => by
    rw [he] at h
    simp at h
  have hup : rs'.Pairwise fun a b => (compare (key a) (key b)).isLE :=
    hup.imp fun h => by rw [h]; rfl
  refine List.Perm.eq_of_pairwise ?_ hup hsorted (hperm.trans (sortedBy_perm key rs).symm)
  intro a b ha hb hab hba
  have hb : b ∈ rs' := hperm.mem_iff.mpr ((sortedBy_perm key rs).mem_iff.mp hb)
  refine List.inj_on_of_nodup_map hnd ha hb (Std.LawfulEqOrd.eq_of_compare ?_)
  exact Std.OrientedCmp.isLE_antisymm hab hba

/-- The entries of a table, as records, are the records it was made of in the
order of their keys. -/
theorem toList_ofList_sorted [DecidableEq κ] {key : ρ → κ} {entry : ρ → κ × ν}
    {record : κ × ν → ρ} {rs : List ρ} (hentry : ∀ r, (entry r).1 = key r)
    (hkey : ∀ e, key (record e) = e.1) (hnd : (rs.map key).Nodup) :
    (Table.ofList (rs.map entry)).toList.map record =
      sortedBy key (rs.map fun r => record (entry r)) := by
  have hnd : ((rs.map entry).map (·.1)).Nodup := by simpa [Function.comp_def, hentry] using hnd
  refine eq_sortedBy ?_ ?_
  · simpa [Function.comp_def] using (Table.toList_ofList_perm hnd).map record
  · exact List.pairwise_map.mpr ((Table.ascending _).imp fun h => by rw [hkey, hkey]; exact h)

/-- Records that are kept whole come back as they were. -/
theorem toList_ofList_records [DecidableEq κ] {key : ρ → κ} {entry : ρ → κ × ν}
    {record : κ × ν → ρ} {rs : List ρ} (hentry : ∀ r, (entry r).1 = key r)
    (hkey : ∀ e, key (record e) = e.1) (hrecord : ∀ r, record (entry r) = r)
    (hnd : (rs.map key).Nodup) :
    (Table.ofList (rs.map entry)).toList.map record = sortedBy key rs := by
  rw [toList_ofList_sorted hentry hkey hnd, List.map_id'' hrecord]

/-! ## Putting records in one by one -/

namespace Update

variable {α β : Type}

theorem run_bind_eq_ok {x : Update α} {f : α → Update β} {g g' : Graph} {b : β} :
    (x >>= f).run g = .ok b g' ↔ ∃ a g₁, x.run g = .ok a g₁ ∧ (f a).run g₁ = .ok b g' := by
  rw [EStateM.run_bind]
  cases x.run g with
  | ok a g₁ => simp
  | error e g₁ => simp

/-- A change puts one record into a table of a graph: it is carried out for a
record that fits, has a new key, and leaves a good table. -/
structure Inserts {ρ κ ν : Type} [Ord κ] [Std.LawfulEqOrd κ] [Std.TransOrd κ]
    (change : ρ → Update Unit) (graph : Table κ ν → Graph) (entry : ρ → κ × ν) (Fits : ρ → Prop)
    (Good : Table κ ν → Prop) : Prop where
  run : ∀ {t r g'}, Good t → ((change r).run (graph t) = .ok () g' ↔
    Fits r ∧ (entry r).1 ∉ t ∧ Good (t.insert (entry r).1 (entry r).2) ∧
      g' = graph (t.insert (entry r).1 (entry r).2))
  good : ∀ {t k v}, k ∉ t → Good (t.insert k v) → Good t

variable {ρ κ ν : Type} [Ord κ] [Std.LawfulEqOrd κ] [Std.TransOrd κ] [DecidableEq κ]
variable {change : ρ → Update Unit} {graph : Table κ ν → Graph} {entry : ρ → κ × ν}
variable {Fits : ρ → Prop} {Good : Table κ ν → Prop}

omit [DecidableEq κ] in
/-- A change that looks for a fault of the record first. -/
theorem Inserts.of_fault {fault : Table κ ν → ρ → Option Error}
    (hrun : ∀ t r, (change r).run (graph t) = match fault t r with
      | some e => .error e (graph t)
      | none => .ok () (graph (t.insert (entry r).1 (entry r).2)))
    (hfault : ∀ t r, Good t → (fault t r = none ↔
      Fits r ∧ (entry r).1 ∉ t ∧ Good (t.insert (entry r).1 (entry r).2)))
    (hgood : ∀ {t k v}, k ∉ t → Good (t.insert k v) → Good t) :
    Inserts change graph entry Fits Good where
  run := by
    intro t r g' ht
    have hiff := hfault t r ht
    rw [hrun]
    cases hf : fault t r with
    | some e =>
      rw [hf] at hiff
      simp only [reduceCtorEq, false_iff] at hiff ⊢
      exact fun h => hiff ⟨h.1, h.2.1, h.2.2.1⟩
    | none =>
      obtain ⟨hfits, hnew, hgood⟩ := hiff.mp hf
      simp only [EStateM.Result.ok.injEq, true_and]
      exact ⟨fun he => ⟨hfits, hnew, hgood, he.symm⟩, fun h => h.2.2.2.symm⟩
  good := hgood

theorem Inserts.good_of_all (h : Inserts change graph entry Fits Good) {es : List (κ × ν)}
    {t : Table κ ν} (hnew : ∀ e ∈ es, e.1 ∉ t) (hnd : (es.map (·.1)).Nodup)
    (hgood : Good (t.insertAll es)) : Good t := by
  induction es generalizing t with
  | nil => exact hgood
  | cons e es ih =>
    obtain ⟨hno, hnd⟩ := List.nodup_cons.mp hnd
    refine h.good (hnew e List.mem_cons_self) (ih (fun e' he' hmem => ?_) hnd hgood)
    rcases Table.mem_insert.mp hmem with he | hmem
    · exact hno (List.mem_map.mpr ⟨e', he', he⟩)
    · exact hnew e' (List.mem_cons_of_mem _ he') hmem

/-- Records go in one by one exactly if each of them fits, no key comes twice,
and the table of all is good. -/
theorem Inserts.forM_run (h : Inserts change graph entry Fits Good) {rs : List ρ}
    {t : Table κ ν} {g' : Graph} (ht : Good t) :
    (rs.forM change).run (graph t) = .ok () g' ↔
      (∀ r ∈ rs, Fits r ∧ (entry r).1 ∉ t) ∧ (rs.map fun r => (entry r).1).Nodup ∧
        Good (t.insertAll (rs.map entry)) ∧ g' = graph (t.insertAll (rs.map entry)) := by
  -- the first record goes into `t`, the others into what that leaves
  induction rs generalizing t with
  | nil =>
    simp [Table.insertAll, ht, eq_comm]
  | cons r rs ih =>
    have hcons : (r :: rs).forM change = (change r >>= fun _ => rs.forM change) := rfl
    rw [hcons, run_bind_eq_ok, List.map_cons, List.map_cons, Table.insertAll_cons, List.nodup_cons,
      List.forall_mem_cons]
    constructor
    · rintro ⟨⟨⟩, g₁, hfirst, hrest⟩
      obtain ⟨hfits, hnew, hgood, rfl⟩ := (h.run ht).mp hfirst
      obtain ⟨hall, hnd, hgood', rfl⟩ := (ih hgood).mp hrest
      refine ⟨⟨⟨hfits, hnew⟩, fun r' hr' => ⟨(hall r' hr').1, fun hmem => ?_⟩⟩, ⟨?_, hnd⟩, hgood',
        rfl⟩
      · exact (hall r' hr').2 (Table.mem_insert.mpr (Or.inr hmem))
      · intro hmem
        obtain ⟨r', hr', he⟩ := List.mem_map.mp hmem
        exact (hall r' hr').2 (Table.mem_insert.mpr (Or.inl he))
    · rintro ⟨⟨⟨hfits, hnew⟩, hall⟩, ⟨hno, hnd⟩, hgood, rfl⟩
      have hnews : ∀ r' ∈ rs, (entry r').1 ∉ t.insert (entry r).1 (entry r).2 := by
        intro r' hr' hmem
        rcases Table.mem_insert.mp hmem with he | hmem
        · exact hno (List.mem_map.mpr ⟨r', hr', he⟩)
        · exact (hall r' hr').2 hmem
      have hfirst : Good (t.insert (entry r).1 (entry r).2) := by
        refine h.good_of_all ?_ (by simpa [Function.comp_def] using hnd) hgood
        simpa using hnews
      refine ⟨(), _, (h.run ht).mpr ⟨hfits, hnew, hfirst, rfl⟩, (ih hfirst).mpr ?_⟩
      exact ⟨fun r' hr' => ⟨(hall r' hr').1, hnews r' hr'⟩, hnd, hgood, rfl⟩

end Update

end StateGraph
