-- Other ways to say a value: the fields of its objects may stand in any order, and fields that
-- hold nothing may be left out. A reader of records finds in all of them what it finds in the
-- value itself, but for a field that is missing where the value has an empty one.
import StateGraph.Proofs.RecordsRead
import StateGraph.Proofs.RenderedValues

namespace StateGraph.Json

/-! ## Rearranged values -/

/-- The names of the fields that a record may leave out when they hold nothing. -/
def omissibleNames : List String := ["edges", "splits", "covers", "rules", "constraints", "subst"]

/-- A field that may be left out. -/
structure Omissible (f : Field) : Prop where
  name : ∃ name ∈ omissibleNames, f.1 = some name
  empty : f.2 = .array [] ∨ f.2 = .object []

/-- Fields that stay, each with a value related to its own, while others that may be left out
are. -/
inductive Thinned (R : Json → Json → Prop) : List Field → List Field → Prop
  | nil : Thinned R [] []
  | stay {k : Option String} {j j' : Json} {fs kept : List Field} (same : R j j')
      (rest : Thinned R fs kept) : Thinned R ((k, j) :: fs) ((k, j') :: kept)
  | drop {f : Field} {fs kept : List Field} (omissible : Omissible f) (rest : Thinned R fs kept) :
      Thinned R (f :: fs) kept

/-- A value with the fields of each object in some order, and any of those left out that may be.
The items of an array stay in their places. -/
inductive Rearranged : Json → Json → Prop
  | atom {j : Json} (flat : j.depth = 0) : Rearranged j j
  | array {items items' : List Json} (same : List.Forall₂ Rearranged items items') :
      Rearranged (.array items) (.array items')
  | object {fields kept fields' : List Field} (thinned : Thinned Rearranged fields kept)
      (order : kept.Perm fields') : Rearranged (.object fields) (.object fields')

variable {j j' : Json} {room : Nat}

theorem Rearranged.eq_of_atom (h : Rearranged j j') (hj : j.depth = 0) : j' = j := by
  cases h with
  | atom => rfl
  | array => simp [depth] at hj
  | object => simp [depth] at hj

theorem depth_object_le {fields : List Field} {n : Nat} :
    (object fields).depth ≤ n + 1 ↔ ∀ f ∈ fields, f.2.depth ≤ n := by
  rw [depth, Nat.add_le_add_iff_right, depthFields_le]

/-- An array takes some room itself, and leaves the rest for its items. -/
theorem Rearranged.of_array {items : List Json} (h : Rearranged (.array items) j)
    (hroom : j.depth ≤ room) : ∃ items' m, j = .array items' ∧ room = m + 1 ∧
      List.Forall₂ Rearranged items items' ∧ ∀ j ∈ items', j.depth ≤ m := by
  cases h with
  | atom hflat => simp [depth] at hflat
  | @array _ items' hitems =>
    cases room with
    | zero => exact absurd hroom not_depth_array_le
    | succ m => exact ⟨items', m, rfl, rfl, hitems, depth_array_le.mp hroom⟩

theorem Rearranged.of_object {fields : List Field} (h : Rearranged (.object fields) j)
    (hroom : j.depth ≤ room) : ∃ kept fields' m, j = .object fields' ∧ room = m + 1 ∧
      Thinned Rearranged fields kept ∧ kept.Perm fields' ∧ ∀ f ∈ fields', f.2.depth ≤ m := by
  cases h with
  | atom hflat => simp [depth] at hflat
  | @object _ kept fields' hkept horder =>
    cases room with
    | zero => simp [depth] at hroom
    | succ m => exact ⟨kept, fields', m, rfl, rfl, hkept, horder, depth_object_le.mp hroom⟩

/-! ## What holds of all parts -/

/-- What holds of each item however it is said holds of the items of the array. -/
theorem forall_mem_items {P : Json → Prop} {items items' : List Json}
    (h : List.Forall₂ Rearranged items items') (hP : ∀ j ∈ items, ∀ j', Rearranged j j' → P j') :
    ∀ j' ∈ items', P j' := by
  induction h with
  | nil => simp
  | cons hsame _ ih =>
    obtain ⟨hhead, htail⟩ := List.forall_mem_cons.mp hP
    exact List.forall_mem_cons.mpr ⟨hhead _ hsame, ih htail⟩

theorem Thinned.forall_mem {fs kept : List Field} (h : Thinned Rearranged fs kept)
    (P : Field → Prop) (hP : ∀ f ∈ fs, ∀ j', Rearranged f.2 j' → P (f.1, j')) : ∀ f ∈ kept, P f := by
  induction h with
  | nil => simp
  | stay hsame _ ih =>
    obtain ⟨hhead, htail⟩ := List.forall_mem_cons.mp hP
    exact List.forall_mem_cons.mpr ⟨hhead _ hsame, ih htail⟩
  | drop _ _ ih => exact ih (List.forall_mem_cons.mp hP).2

/-- However a plain value is said, it is plain. -/
theorem Plain.rearranged (h : Plain j) (hj : Rearranged j j') : Plain j' := by
  induction h generalizing j' with
  | nat n =>
    rw [hj.eq_of_atom (depth_nat n)]
    exact .nat n
  | text s =>
    rw [hj.eq_of_atom (depth_text s)]
    exact .text s
  | @array items _ ih =>
    obtain ⟨items', -, rfl, -, hitems, -⟩ := hj.of_array (Nat.le_refl _)
    exact .array (forall_mem_items hitems fun j hj _ => ih j hj)
  | @object fields hkeys _ ih =>
    obtain ⟨kept, fields', -, rfl, -, hkept, horder, -⟩ := hj.of_object (Nat.le_refl _)
    have hplain : ∀ f ∈ kept, (∃ k, f.1 = some k) ∧ Plain f.2 :=
      hkept.forall_mem _ fun f hf j' hsame => ⟨hkeys f hf, ih f hf hsame⟩
    refine .object (fun f hf => ?_) fun f hf => ?_
    · exact (hplain f (horder.mem_iff.mpr hf)).1
    · exact (hplain f (horder.mem_iff.mpr hf)).2

/-! ## Fields by their names -/

theorem fieldsNamed_eq_nil {name : String} {fs : List Field} (h : ∀ f ∈ fs, f.1 ≠ some name) :
    fieldsNamed name fs = [] := by
  unfold fieldsNamed
  rw [List.filter_eq_nil_iff.mpr (by simpa using h), List.map_nil]

theorem fieldsNamed_cons_self (name : String) (j : Json) (fs : List Field) :
    fieldsNamed name ((some name, j) :: fs) = j :: fieldsNamed name fs := by
  simp [fieldsNamed]

theorem fieldsNamed_cons_of_ne {name : String} {f : Field} (h : f.1 ≠ some name)
    (fs : List Field) : fieldsNamed name (f :: fs) = fieldsNamed name fs := by
  simp [fieldsNamed, h]

theorem fieldsNamed_perm {fs fs' : List Field} (h : fs.Perm fs') (name : String) :
    (fieldsNamed name fs).Perm (fieldsNamed name fs') := (h.filter _).map _

/-- A field is found wherever it stands. -/
theorem fieldNamed_perm {fs fs' : List Field} (h : fs.Perm fs') (name : String) :
    fieldNamed fs name = fieldNamed fs' name := by
  have hperm := fieldsNamed_perm h name
  unfold fieldNamed
  match hfs : fieldsNamed name fs with
  | [] => rw [hfs, List.nil_perm] at hperm; rw [hperm]
  | [j] => rw [hfs, List.singleton_perm] at hperm; rw [← hperm]
  | a :: b :: rest =>
    rw [hfs] at hperm
    match hfs' : fieldsNamed name fs' with
    | [] => simp [hfs'] at hperm
    | [_] => simp [hfs'] at hperm
    | _ :: _ :: _ => rfl

theorem fields?_perm {fs fs' : List Field} (h : fs.Perm fs') (names : List String) :
    fields? names (.object fs) = fields? names (.object fs') := by
  have hnamed : fieldNamed fs = fieldNamed fs' := funext (fieldNamed_perm h)
  simp only [fields?, h.all_eq, hnamed]

/-- The names of fields that stay are names of the fields there were. -/
theorem Thinned.name_ne {fields : List (String × Json)} {kept : List Field} {name : String}
    (h : Thinned Rearranged (fields.map fun f => (some f.1, f.2)) kept)
    (hname : name ∉ fields.map (·.1)) : ∀ f ∈ kept, f.1 ≠ some name := by
  refine h.forall_mem (fun f => f.1 ≠ some name) ?_
  rw [List.forall_mem_map]
  intro f hf _ _ heq
  exact hname (List.mem_map.mpr ⟨f, hf, Option.some.inj heq⟩)

/-! ## What a reader finds -/

/-- What a reader finds of a field, with so much room for its value: the value, said in some way,
or nothing. -/
inductive Found (room : Nat) (f : String × Json) : Option Json → Prop
  | given {j : Json} (same : Rearranged f.2 j) (depth : j.depth ≤ room) : Found room f (some j)
  | missing (omissible : Omissible (some f.1, f.2)) : Found room f none

theorem Thinned.found {fields : List (String × Json)} {kept : List Field}
    (h : Thinned Rearranged (fields.map fun f => (some f.1, f.2)) kept)
    (hnd : (fields.map (·.1)).Nodup) (hroom : ∀ f ∈ kept, f.2.depth ≤ room) :
    ∀ f ∈ fields, ∃ v, fieldNamed kept f.1 = some v ∧ Found room f v := by
  induction fields generalizing kept with
  | nil => simp
  | cons f fields ih =>
    obtain ⟨hno, hnd⟩ := List.nodup_cons.mp hnd
    have hother : ∀ g ∈ fields, some f.1 ≠ some g.1 := fun g hg heq =>
      hno (List.mem_map.mpr ⟨g, hg, (Option.some.inj heq).symm⟩)
    rw [List.map_cons] at h
    cases h with
    | @stay _ _ j' _ kept hsame hrest =>
      obtain ⟨hj, hroom⟩ := List.forall_mem_cons.mp hroom
      refine List.forall_mem_cons.mpr ⟨⟨some j', ?_, .given hsame hj⟩, fun g hg => ?_⟩
      · unfold fieldNamed
        rw [fieldsNamed_cons_self, fieldsNamed_eq_nil (hrest.name_ne hno)]
      · unfold fieldNamed
        rw [fieldsNamed_cons_of_ne (hother g hg)]
        exact ih hrest hnd hroom g hg
    | drop homissible hrest =>
      refine List.forall_mem_cons.mpr ⟨⟨none, ?_, .missing homissible⟩, ih hrest hnd hroom⟩
      unfold fieldNamed
      rw [fieldsNamed_eq_nil (hrest.name_ne hno)]

theorem exists_mapM {α β γ : Type} {read : γ → Option β} {name : α → γ} {R : α → β → Prop}
    {xs : List α} (h : ∀ a ∈ xs, ∃ b, read (name a) = some b ∧ R a b) :
    ∃ bs, (xs.map name).mapM read = some bs ∧ List.Forall₂ R xs bs := by
  induction xs with
  | nil => exact ⟨[], rfl, .nil⟩
  | cons x xs ih =>
    obtain ⟨⟨b, hb, hx⟩, hxs⟩ := List.forall_mem_cons.mp h
    obtain ⟨bs, hbs, hall⟩ := ih hxs
    exact ⟨b :: bs, by simp [hb, hbs], .cons hx hall⟩

/-- In whatever way a record is said, each of its fields is found as it has to be. -/
theorem Rearranged.fields? {fields : List (String × Json)} (h : Rearranged (record fields) j)
    (hnd : (fields.map (·.1)).Nodup) (hroom : j.depth ≤ room) :
    ∃ m vs, room = m + 1 ∧ fields? (fields.map (·.1)) j = some vs ∧
      List.Forall₂ (Found m) fields vs := by
  rw [record_eq] at h
  obtain ⟨kept, fields', m, rfl, rfl, hkept, horder, hdepth⟩ := h.of_object hroom
  have hkeys : ∀ f ∈ kept, f.1.isSome = true :=
    hkept.forall_mem (fun f => f.1.isSome = true) (List.forall_mem_map.mpr fun _ _ _ _ => rfl)
  obtain ⟨vs, hvs, hall⟩ :=
    exists_mapM (hkept.found hnd fun f hf => hdepth f (horder.mem_iff.mp hf))
  refine ⟨m, vs, rfl, ?_, hall⟩
  rw [← fields?_perm horder]
  simp only [Json.fields?, List.all_eq_true.mpr hkeys, if_true, hvs]

/-- A tag is found at any place, and the other fields are left. -/
theorem Rearranged.tagged? {name : String} {tag : Json} {fields : List (String × Json)}
    (h : Rearranged (record ((name, tag) :: fields)) j) (htag : tag.depth = 0)
    (hname : name ∉ fields.map (·.1)) (hroom : j.depth ≤ room) :
    ∃ rest, tagged? name j = some (tag, rest) ∧ Rearranged (record fields) rest ∧
      rest.depth ≤ room := by
  rw [record_eq, List.map_cons] at h
  obtain ⟨kept, fields', m, rfl, rfl, hkept, horder, hdepth⟩ := h.of_object hroom
  cases hkept with
  | drop homissible => rcases homissible.empty with rfl | rfl <;> simp [depth] at htag
  | @stay _ _ j' _ kept hsame hrest =>
    obtain rfl : j' = tag := hsame.eq_of_atom htag
    have hnames := hrest.name_ne hname
    refine ⟨.object (fields'.filter fun f => f.1 != some name), ?_, ?_, ?_⟩
    · have hfound := fieldsNamed_perm horder name
      rw [fieldsNamed_cons_self, fieldsNamed_eq_nil hnames, List.singleton_perm] at hfound
      simp only [Json.tagged?, ← hfound]
    · have hleft := horder.filter fun f => f.1 != some name
      rw [List.filter_cons_of_neg (by simp), List.filter_eq_self.mpr (by simpa using hnames)]
        at hleft
      exact .object hrest hleft
    · exact depth_object_le.mpr fun f hf => hdepth f (List.mem_of_mem_filter hf)

/-! ## Values that can be kept -/

/-- However the value is said, it can be kept where there is room for it. -/
def AlwaysKept (j : Json) : Prop :=
  ∀ j' room, Rearranged j j' → j'.depth ≤ room → j'.keepable room = true

theorem alwaysKept_text (s : String) : AlwaysKept (text s) := by
  intro j' room h _
  rw [h.eq_of_atom (depth_text s), keepable_text]

theorem alwaysKept_array {items : List Json} (h : ∀ j ∈ items, AlwaysKept j) :
    AlwaysKept (.array items) := by
  intro j' room hj' hroom
  obtain ⟨items', m, rfl, rfl, hitems, hdepth⟩ := hj'.of_array hroom
  rw [keepable, List.all_eq_true]
  have hkept : ∀ j' ∈ items', j'.depth ≤ m → j'.keepable m = true :=
    forall_mem_items hitems fun j hj j' hsame => h j hj j' m hsame
  exact fun j' hj' => hkept j' hj' (hdepth j' hj')

theorem alwaysKept_record {fields : List (String × Json)} (h : ∀ f ∈ fields, AlwaysKept f.2) :
    AlwaysKept (record fields) := by
  intro j' room hj' hroom
  rw [record_eq] at hj'
  obtain ⟨kept, fields', m, rfl, rfl, hkept, horder, hdepth⟩ := hj'.of_object hroom
  have hall : ∀ f ∈ kept, f.1.isSome = true ∧ (f.2.depth ≤ m → f.2.keepable m = true) := by
    refine hkept.forall_mem (fun f => f.1.isSome ∧ (f.2.depth ≤ m → f.2.keepable m)) ?_
    rw [List.forall_mem_map]
    exact fun f hf j' hsame => ⟨rfl, h f hf j' m hsame⟩
  rw [keepable, List.all_eq_true]
  intro f hf
  obtain ⟨hkey, hvalue⟩ := hall f (horder.mem_iff.mpr hf)
  rw [hkey, hvalue (hdepth f hf), Bool.and_self]

/-! ## Readers -/

variable {α : Type} {P : α → Prop} {read : Nat → Json → Option α} {write : α → Json}

/-- What has `P` is read in whatever way it is said, where there is room for it. -/
structure ReadsRearranged (P : α → Prop) (read : Nat → Json → Option α) (write : α → Json) :
    Prop where
  eq {room : Nat} {a : α} {j : Json} : P a → Rearranged (write a) j → j.depth ≤ room →
    read room j = some a

theorem mapM_eq_of_forall₂ {γ : Type} {read : γ → Option α} {R : α → γ → Prop} {xs : List α}
    {js : List γ} (h : List.Forall₂ R xs js)
    (hread : ∀ a ∈ xs, ∀ j ∈ js, R a j → read j = some a) : js.mapM read = some xs := by
  induction h with
  | nil => rfl
  | @cons a j xs js hsame _ ih =>
    have hhead := hread a List.mem_cons_self j List.mem_cons_self hsame
    have htail := ih fun a ha j hj =>
      hread a (List.mem_cons_of_mem _ ha) j (List.mem_cons_of_mem _ hj)
    simp [hhead, htail]

theorem ReadsRearranged.list (h : ReadsRearranged P read write) :
    ReadsRearranged (fun xs => ∀ a ∈ xs, P a) (list? read) (Json.list write) := by
  refine ⟨fun {room xs j} hxs hj hroom => ?_⟩
  obtain ⟨items, m, rfl, rfl, hitems, hdepth⟩ := hj.of_array hroom
  rw [List.forall₂_map_left_iff] at hitems
  exact mapM_eq_of_forall₂ hitems fun a ha j hj hsame => h.eq (hxs a ha) hsame (hdepth j hj)

theorem readsRearranged_text : ReadsRearranged (fun _ => True) (fun _ => text?) text := by
  refine ⟨fun {room s j} _ hj _ => ?_⟩
  rw [hj.eq_of_atom (depth_text s), text?_text]

theorem readsRearranged_word : ReadsRearranged (· < UInt64.size) (fun _ => word?) nat := by
  refine ⟨fun {room n j} hn hj _ => ?_⟩
  rw [hj.eq_of_atom (depth_nat n), word?_nat hn]

theorem Found.exists_given {name : String} {v : Option Json} (hv : Found room (name, j) v)
    (hname : name ∉ omissibleNames) : ∃ j', v = some j' ∧ Rearranged j j' ∧ j'.depth ≤ room := by
  cases hv with
  | @given j' hsame hdepth => exact ⟨j', rfl, hsame, hdepth⟩
  | missing homissible =>
    obtain ⟨_, hmem, heq⟩ := homissible.name
    obtain rfl := Option.some.inj heq
    exact absurd hmem hname

/-- A field that has to be given is read. -/
theorem Found.required {name : String} {a : α} {v : Option Json}
    (hv : Found room (name, write a) v) (h : ReadsRearranged P read write) (ha : P a)
    (hname : name ∉ omissibleNames) : required (read room) v = some a := by
  obtain ⟨j, rfl, hsame, hdepth⟩ := hv.exists_given hname
  exact h.eq ha hsame hdepth

/-- A field that may be left out is read, or its default is what was left out. -/
theorem Found.optional {name : String} {a default : α} {v : Option Json}
    (hv : Found room (name, write a) v) (h : ReadsRearranged P read write) (ha : P a)
    (hempty : write a = .array [] ∨ write a = .object [] → a = default) :
    optional default (read room) v = some a := by
  cases hv with
  | given hsame hdepth => exact h.eq ha hsame hdepth
  | missing homissible => rw [hempty homissible.empty]; rfl

theorem list_eq_nil {xs : List α} (h : Json.list write xs = .array [] ∨
    Json.list write xs = .object []) : xs = [] := by
  simpa [Json.list] using h

/-- A record is read in whatever way it is said if it is put together from what is found of its
fields. -/
theorem ReadsRearranged.of_fields {fields : α → List (String × Json)}
    {build : Nat → List (Option Json) → Option α} (hwrite : ∀ a, write a = record (fields a))
    (hread : ∀ room a j, read (room + 1) j = (fields? ((fields a).map (·.1)) j).bind (build room))
    (hnd : ∀ a, ((fields a).map (·.1)).Nodup)
    (hbuild : ∀ {room a vs}, P a → List.Forall₂ (Found room) (fields a) vs →
      build room vs = some a) :
    ReadsRearranged P read write := by
  refine ⟨fun {room a j} ha hj hroom => ?_⟩
  rw [hwrite] at hj
  obtain ⟨m, vs, rfl, hvs, hall⟩ := hj.fields? (hnd a) hroom
  rw [hread m a, hvs, Option.bind_some, hbuild ha hall]

end StateGraph.Json
