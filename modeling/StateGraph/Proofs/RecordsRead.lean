-- Records written as values and read back. Reading gives the record again exactly
-- if the value has no more arrays and objects inside one another than there is room
-- for.
import StateGraph.Snapshot.Decode
import StateGraph.Snapshot.Encode
import StateGraph.Proofs.RecordLists

namespace StateGraph

namespace Json

variable {α β γ : Type}

/-! ## Depth -/

theorem depthAll_le {items : List Json} {n : Nat} :
    depthAll items ≤ n ↔ ∀ j ∈ items, j.depth ≤ n := by
  induction items with
  | nil => simp [depthAll]
  | cons j js ih => rw [depthAll, Nat.max_le, ih, List.forall_mem_cons]

theorem depthFields_le {fields : List (Option String × Json)} {n : Nat} :
    depthFields fields ≤ n ↔ ∀ f ∈ fields, f.2.depth ≤ n := by
  induction fields with
  | nil => simp [depthFields]
  | cons f fs ih => rw [depthFields, Nat.max_le, ih, List.forall_mem_cons]

theorem depth_array_le {items : List Json} {n : Nat} :
    (array items).depth ≤ n + 1 ↔ ∀ j ∈ items, j.depth ≤ n := by
  rw [depth, Nat.add_le_add_iff_right, depthAll_le]

theorem depth_record_le {fields : List (String × Json)} {n : Nat} :
    (record fields).depth ≤ n + 1 ↔ ∀ f ∈ fields, f.2.depth ≤ n := by
  rw [record, depth, Nat.add_le_add_iff_right, depthFields_le, List.forall_mem_map]

/-- A record takes some room itself, and leaves the rest for its fields. -/
theorem exists_room {fields : List (String × Json)} {n : Nat} (h : (record fields).depth ≤ n) :
    ∃ m, n = m + 1 ∧ ∀ f ∈ fields, f.2.depth ≤ m := by
  cases n with
  | zero => simp [record, depth] at h
  | succ m => exact ⟨m, rfl, depth_record_le.mp h⟩

theorem not_depth_array_le {items : List Json} : ¬ (array items).depth ≤ 0 := by simp [depth]

theorem not_depth_record_le {fields : List (String × Json)} : ¬ (record fields).depth ≤ 0 := by
  simp [record, depth]

@[simp]
theorem depth_text (s : String) : (text s).depth = 0 := rfl

@[simp]
theorem depth_nat (n : Nat) : (nat n).depth = 0 := rfl

/-! ## Reading back -/

/-- What has `P` is read back, and as nothing else, exactly if there is room for its
value. -/
structure ReadsBack (P : α → Prop) (read : Nat → Json → Option α) (write : α → Json) : Prop where
  iff {room : Nat} {a b : α} : P a → (read room (write a) = some b ↔ (write a).depth ≤ room ∧ a = b)

theorem mapM_eq_some {read : γ → Option β} {write : α → γ} {p : α → Prop} {f : α → β}
    {xs : List α} (h : ∀ a ∈ xs, ∀ b, read (write a) = some b ↔ p a ∧ f a = b) {ys : List β} :
    (xs.map write).mapM read = some ys ↔ (∀ a ∈ xs, p a) ∧ xs.map f = ys := by
  induction xs generalizing ys with
  | nil => simp
  | cons x xs ih =>
    have hx := h x List.mem_cons_self
    have hxs {ys : List β} : (xs.map write).mapM read = some ys ↔ (∀ a ∈ xs, p a) ∧ xs.map f = ys :=
      ih fun a ha => h a (List.mem_cons_of_mem _ ha)
    simp only [List.map_cons, List.mapM_cons, Option.bind_eq_bind, Option.bind_eq_some_iff, hx, hxs,
      Option.pure_def, Option.some.injEq, List.forall_mem_cons]
    constructor
    · rintro ⟨_, ⟨hp, rfl⟩, _, ⟨hps, rfl⟩, rfl⟩
      exact ⟨⟨hp, hps⟩, rfl⟩
    · rintro ⟨⟨hp, hps⟩, rfl⟩
      exact ⟨_, ⟨hp, rfl⟩, _, ⟨hps, rfl⟩, rfl⟩

theorem ReadsBack.list {P : α → Prop} {read : Nat → Json → Option α} {write : α → Json}
    (h : ReadsBack P read write) :
    ReadsBack (fun xs => ∀ a ∈ xs, P a) (list? read) (Json.list write) := by
  refine ⟨fun {room xs ys} hxs => ?_⟩
  cases room with
  | zero =>
    have hno : ¬ (Json.list write xs).depth ≤ 0 := not_depth_array_le
    simp [list?, hno]
  | succ room =>
    have hread : (xs.map write).mapM (read room) = some ys ↔
        (∀ a ∈ xs, (write a).depth ≤ room) ∧ xs.map (fun a => a) = ys :=
      mapM_eq_some fun a ha _ => h.iff (hxs a ha)
    rw [List.map_id'] at hread
    simpa only [Json.list, list?, depth_array_le, List.forall_mem_map] using hread

theorem readsBack_text : ReadsBack (fun _ => True) (fun _ => text?) text := by
  refine ⟨fun _ => ?_⟩
  simp [text?, text, depth]

@[simp]
theorem word?_nat {n m : Nat} (h : n < UInt64.size) : word? (nat n) = some m ↔ n = m := by
  have hvalue : (Numeral.ofNat n).nat? = some n := by
    simp [Numeral.nat?, Numeral.ofNat, Nat.ofDigitChars_toDigits]
  simp only [word?, nat, hvalue, Option.filter_some, h, decide_true, if_true, Option.some.injEq]

/-! ## Fields -/

theorem filter_key {fields : List (String × Json)} (hnd : (fields.map (·.1)).Nodup)
    {f : String × Json} (hf : f ∈ fields) : (fields.filter fun e => e.1 == f.1) = [f] := by
  induction fields with
  | nil => cases hf
  | cons e fields ih =>
    obtain ⟨hno, hnd⟩ := List.nodup_cons.mp hnd
    rcases List.mem_cons.mp hf with rfl | hf
    · rw [List.filter_cons_of_pos (by simp), List.filter_eq_nil_iff.mpr]
      intro e he heq
      exact hno (List.mem_map.mpr ⟨e, he, eq_of_beq heq⟩)
    · rw [List.filter_cons_of_neg, ih hnd hf]
      intro heq
      exact hno (List.mem_map.mpr ⟨f, hf, (eq_of_beq heq).symm⟩)

theorem record_eq (fields : List (String × Json)) :
    record fields = .object (fields.map fun f => (some f.1, f.2)) := rfl

/-- The fields of a record with distinct names are found by them. -/
theorem fields?_record {fields : List (String × Json)} (hnd : (fields.map (·.1)).Nodup) :
    fields? (fields.map (·.1)) (record fields) = some (fields.map fun f => some f.2) := by
  have hfield : ∀ f ∈ fields,
      fieldNamed (fields.map fun f => (some f.1, f.2)) f.1 = some (some f.2) := by
    intro f hf
    have hfound : fieldsNamed f.1 (fields.map fun f => (some f.1, f.2)) = [f.2] := by
      simp [fieldsNamed, List.filter_map, Function.comp_def, filter_key hnd hf]
    rw [fieldNamed, hfound]
  have hkeys : (fields.map fun f => (some f.1, f.2)).all (·.1.isSome) = true := by simp
  have hall : ∀ fs ⊆ fields,
      (fs.map (·.1)).mapM (fieldNamed (fields.map fun f => (some f.1, f.2))) =
        some (fs.map fun f => some f.2) := by
    intro fs hfs
    induction fs with
    | nil => rfl
    | cons f fs ih =>
      obtain ⟨hf, hfs⟩ := List.cons_subset.mp hfs
      simp [hfield f hf, ih hfs]
  rw [record_eq, fields?, hkeys, if_pos rfl, hall fields (List.Subset.refl _)]

@[simp]
theorem required_some (read : Json → Option α) (j : Json) : required read (some j) = read j := rfl

@[simp]
theorem text?_text (s : String) : text? (text s) = some s := rfl

@[simp]
theorem optional_some (default : α) (read : Json → Option α) (j : Json) :
    optional default read (some j) = read j := rfl

/-- A record is read back if it is put together from its fields when there is room for
each of them, and not without. -/
theorem ReadsBack.of_fields {P : α → Prop} {read : Nat → Json → Option α} {write : α → Json}
    {fields : α → List (String × Json)} {build : Nat → List (Option Json) → Option α}
    (hwrite : ∀ a, write a = record (fields a)) (hzero : ∀ j, read 0 j = none)
    (hread : ∀ room a j, read (room + 1) j = (fields? ((fields a).map (·.1)) j).bind (build room))
    (hnd : ∀ a, ((fields a).map (·.1)).Nodup)
    (hbuild : ∀ {room a b}, P a → (build room ((fields a).map fun f => some f.2) = some b ↔
      (∀ f ∈ fields a, f.2.depth ≤ room) ∧ a = b)) :
    ReadsBack P read write := by
  refine ⟨fun {room a b} ha => ?_⟩
  rw [hwrite]
  cases room with
  | zero => simp only [hzero, reduceCtorEq, not_depth_record_le, false_and]
  | succ room =>
    rw [hread room a, fields?_record (hnd a), Option.bind_some, hbuild ha, depth_record_le]

/-! ## Values that can be kept -/

theorem keepable_array {items : List Json} {room : Nat}
    (h : ∀ j ∈ items, ∀ room, j.keepable room = true ↔ j.depth ≤ room) :
    (array items).keepable room = true ↔ (array items).depth ≤ room := by
  cases room with
  | zero => simp [keepable, depth]
  | succ room =>
    rw [keepable, List.all_eq_true, depth_array_le]
    exact forall₂_congr fun j hj => h j hj room

theorem keepable_record {fields : List (String × Json)} {room : Nat}
    (h : ∀ f ∈ fields, ∀ room, f.2.keepable room = true ↔ f.2.depth ≤ room) :
    (record fields).keepable room = true ↔ (record fields).depth ≤ room := by
  cases room with
  | zero => simp [record, keepable, depth]
  | succ room =>
    rw [depth_record_le, record, keepable, List.all_map, List.all_eq_true]
    refine forall₂_congr fun f hf => ?_
    simpa using h f hf room

@[simp]
theorem keepable_text (s : String) (room : Nat) : (text s).keepable room = true := by
  cases room <;> rfl

theorem tagged?_record {name : String} (tag : Json) {fields : List (String × Json)}
    (h : ∀ f ∈ fields, f.1 ≠ name) :
    tagged? name (record ((name, tag) :: fields)) = some (tag, record fields) := by
  have hmem : ∀ f ∈ fields.map fun f => (some f.1, f.2), f.1 ≠ some name := by
    rw [List.forall_mem_map]
    exact fun f hf heq => h f hf (Option.some.inj heq)
  have hfound : fieldsNamed name ((some name, tag) :: fields.map fun f => (some f.1, f.2)) =
      [tag] := by
    rw [fieldsNamed, List.filter_cons_of_pos (by simp),
      List.filter_eq_nil_iff.mpr (by simpa using hmem)]
    rfl
  have hleft : ((some name, tag) :: fields.map fun f => (some f.1, f.2)).filter
      (fun f => f.1 != some name) = fields.map fun f => (some f.1, f.2) := by
    rw [List.filter_cons_of_neg (by simp), List.filter_eq_self.mpr (by simpa using hmem)]
  simp only [tagged?, record_eq, List.map_cons, hfound, hleft]

end Json

/-! ## Terms -/

namespace Term

open Json

/-- Terms in an array can be kept if each of them can. -/
theorem keepable_toJsonAll {ts : List Term} {room : Nat}
    (h : ∀ t ∈ ts, ∀ room, t.toJson.keepable room = true ↔ t.toJson.depth ≤ room) :
    (array (toJsonAll ts)).keepable room = true ↔ (array (toJsonAll ts)).depth ≤ room := by
  rw [toJsonAll_eq]
  exact keepable_array (List.forall_mem_map.mpr h)

theorem keepable_toJson (t : Term) (room : Nat) :
    t.toJson.keepable room = true ↔ t.toJson.depth ≤ room := by
  induction t using induct generalizing room with
  | var name => exact keepable_record (by simp)
  | token text sort => exact keepable_record (by simp)
  | apply label args ih => exact keepable_record (by simpa using fun _ => keepable_toJsonAll ih)
  | sequence items ih => exact keepable_record (by simpa using fun _ => keepable_toJsonAll ih)

theorem terms?_toJson {ts : List Term} {room : Nat}
    (h : ∀ t ∈ ts, ∀ inner room, t.toJson.depth ≤ room → build? inner room t.toJson = some t)
    (hroom : (array (toJsonAll ts)).depth ≤ room) :
    build?.terms? room (some (array (toJsonAll ts))) = some ts := by
  cases room with
  | zero => exact absurd hroom not_depth_array_le
  | succ room =>
    rw [depth_array_le, toJsonAll_eq, List.forall_mem_map] at hroom
    rw [build?.terms?, toJsonAll_eq]
    have hread : (ts.map toJson).mapM (build? true room) = some ts ↔
        (∀ t ∈ ts, True) ∧ ts.map (fun t => t) = ts :=
      mapM_eq_some fun t ht _ => by simp [h t ht true room (hroom t ht)]
    exact hread.mpr ⟨fun _ _ => trivial, List.map_id' _⟩

/-- The fields of a record that begins with its kind. -/
theorem tagged_fields (kind : String) (fields : List (String × Json))
    (hnd : ("kind" :: fields.map (·.1)).Nodup) :
    tagged? "kind" (record (("kind", text kind) :: fields)) = some (text kind, record fields) ∧
      fields? (fields.map (·.1)) (record fields) = some (fields.map fun f => some f.2) := by
  obtain ⟨hkind, hnd⟩ := List.nodup_cons.mp hnd
  refine ⟨tagged?_record _ fun f hf heq => hkind ?_, fields?_record hnd⟩
  exact List.mem_map.mpr ⟨f, hf, heq⟩

/-- A term that there is room for is built again, inside another term or not. -/
theorem build?_toJson (t : Term) (inner : Bool) {room : Nat} (h : t.toJson.depth ≤ room) :
    build? inner room t.toJson = some t := by
  induction t using induct generalizing inner room with
  | var name =>
    obtain ⟨room, rfl, -⟩ := exists_room h
    have hkind : Kind.ofJson? inner (text "variable") = some .var := rfl
    obtain ⟨htag, hfields⟩ := tagged_fields "variable" [("name", text name)] (by simp)
    simp only [List.map_cons, List.map_nil] at hfields
    simp [build?, toJson, htag, hfields, hkind]
  | token text sort =>
    obtain ⟨room, rfl, -⟩ := exists_room h
    have hkind : Kind.ofJson? inner (.text "token") = some .token := rfl
    obtain ⟨htag, hfields⟩ :=
      tagged_fields "token" [("token", .text text), ("sort", .text sort)] (by simp)
    simp only [List.map_cons, List.map_nil] at hfields
    simp [build?, toJson, htag, hfields, hkind]
  | apply label args ih =>
    obtain ⟨room, rfl, hroom⟩ := exists_room h
    have hkind : Kind.ofJson? inner (text "apply") = some .apply := rfl
    obtain ⟨htag, hfields⟩ :=
      tagged_fields "apply" [("label", text label), ("args", .array (toJsonAll args))] (by simp)
    have hargs := terms?_toJson ih (hroom ("args", _) (by simp))
    simp only [List.map_cons, List.map_nil] at hfields
    simp [build?, toJson, htag, hfields, hkind, hargs]
  | sequence items ih =>
    obtain ⟨room, rfl, hroom⟩ := exists_room h
    have hkind : Kind.ofJson? inner (text "sequence") = some .sequence := rfl
    obtain ⟨htag, hfields⟩ :=
      tagged_fields "sequence" [("items", .array (toJsonAll items))] (by simp)
    have hitems := terms?_toJson ih (hroom ("items", _) (by simp))
    simp only [List.map_cons, List.map_nil] at hfields
    simp [build?, toJson, htag, hfields, hkind, hitems]

theorem readsBack : ReadsBack (fun _ => True) ofJson? toJson := by
  refine ⟨fun {room s t} _ => ?_⟩
  by_cases h : s.toJson.depth ≤ room
  · rw [ofJson?, if_pos ((keepable_toJson s room).mpr h), build?_toJson s false h]
    simp [h]
  · rw [ofJson?, if_neg (mt (keepable_toJson s room).mp h)]
    simp [h]

/-- Bindings are read back: their names are distinct, so none is lost. -/
theorem readsBack_bindings : ReadsBack (fun _ => True) bindings?
    (fun b => record (b.toList.map fun e => (e.1, e.2.toJson))) := by
  refine ⟨fun {room b b'} _ => ?_⟩
  cases room with
  | zero => simp [bindings?, record, depth]
  | succ room =>
    have hread : ∀ es,
        (((b.toList.map fun e => (e.1, e.2.toJson)).map fun f => (some f.1, f.2)).mapM fun f => do
          return (← f.1, ← ofJson? room f.2)) = some es ↔
        (∀ e ∈ b.toList, e.2.toJson.depth ≤ room) ∧ b.toList.map (fun e => e) = es := by
      intro es
      rw [List.map_map]
      refine mapM_eq_some fun e _ e' => ?_
      obtain ⟨x, t⟩ := e
      obtain ⟨x', t'⟩ := e'
      simp [Option.bind_eq_some_iff, readsBack.iff trivial, and_left_comm]
    rw [depth_record_le, List.forall_mem_map, record_eq, bindings?, Option.map_eq_map,
      Option.map_eq_some_iff]
    simp only [hread, List.map_id']
    constructor
    · rintro ⟨_, ⟨hroom, rfl⟩, rfl⟩
      exact ⟨hroom, (Table.ofList_toList b).symm⟩
    · rintro ⟨hroom, rfl⟩
      exact ⟨_, ⟨hroom, rfl⟩, Table.ofList_toList b⟩

end Term

/-! ## Records -/

open Json (ReadsBack word?_nat readsBack_text)

theorem Config.readsBack : ReadsBack (fun _ => True) ofJson? toJson := by
  refine .of_fields (fun _ => rfl) (fun _ => rfl) (fun _ _ _ => rfl) (fun _ => by simp)
    fun {_ c c'} _ => ?_
  obtain ⟨term, constraints⟩ := c
  obtain ⟨term', constraints'⟩ := c'
  simp [Option.bind_eq_some_iff, Term.readsBack.iff trivial,
    Term.readsBack.list.iff fun _ _ => trivial, and_assoc]

theorem Effect.readsBack : ReadsBack (fun _ => True) ofJson? toJson := by
  refine .of_fields (fun _ => rfl) (fun _ => rfl) (fun _ _ _ => rfl) (fun _ => by simp)
    fun {_ e e'} _ => ?_
  obtain ⟨bindings, constraints⟩ := e
  obtain ⟨bindings', constraints'⟩ := e'
  simp [Option.bind_eq_some_iff, Term.readsBack_bindings.iff trivial,
    Term.readsBack.list.iff fun _ _ => trivial, and_assoc]

theorem Step.readsBack : ReadsBack (fun _ => True) ofJson? toJson := by
  refine .of_fields (fun _ => rfl) (fun _ => rfl) (fun _ _ _ => rfl) (fun _ => by simp)
    fun {_ s s'} _ => ?_
  obtain ⟨depth, rules, effect⟩ := s
  obtain ⟨depth', rules', effect'⟩ := s'
  simp [Option.bind_eq_some_iff, word?_nat depth.toNat_lt,  Effect.readsBack.iff trivial,
    readsBack_text.list.iff fun _ _ => trivial, and_assoc]

theorem NodeRecord.readsBack : ReadsBack (fun r => r.id < UInt64.size) ofJson? toJson := by
  refine .of_fields (fun _ => rfl) (fun _ => rfl) (fun _ _ _ => rfl) (fun _ => by simp)
    fun {_ r r'} hr => ?_
  obtain ⟨id, config⟩ := r
  obtain ⟨id', config'⟩ := r'
  simp [Option.bind_eq_some_iff, word?_nat hr, Config.readsBack.iff trivial, and_assoc]

theorem EdgeRecord.readsBack :
    ReadsBack (fun r => r.source < UInt64.size ∧ r.target < UInt64.size) ofJson? toJson := by
  refine .of_fields (fun _ => rfl) (fun _ => rfl) (fun _ _ _ => rfl) (fun _ => by simp)
    fun {_ r r'} hr => ?_
  obtain ⟨source, target, steps⟩ := r
  obtain ⟨source', target', steps'⟩ := r'
  simp [Option.bind_eq_some_iff, word?_nat hr.1, word?_nat hr.2, 
    Step.readsBack.list.iff fun _ _ => trivial, and_assoc]

theorem BranchRecord.readsBack : ReadsBack (fun r => r.target < UInt64.size) ofJson? toJson := by
  refine .of_fields (fun _ => rfl) (fun _ => rfl) (fun _ _ _ => rfl) (fun _ => by simp)
    fun {_ r r'} hr => ?_
  obtain ⟨target, effect⟩ := r
  obtain ⟨target', effect'⟩ := r'
  simp [Option.bind_eq_some_iff, word?_nat hr, Effect.readsBack.iff trivial, and_assoc]

theorem SplitRecord.readsBack :
    ReadsBack (fun r => r.source < UInt64.size ∧ ∀ b ∈ r.targets, b.target < UInt64.size)
      ofJson? toJson := by
  refine .of_fields (fun _ => rfl) (fun _ => rfl) (fun _ _ _ => rfl) (fun _ => by simp)
    fun {_ r r'} hr => ?_
  obtain ⟨source, shared, targets⟩ := r
  obtain ⟨source', shared', targets'⟩ := r'
  simp [Option.bind_eq_some_iff, word?_nat hr.1, Effect.readsBack.iff trivial,
    BranchRecord.readsBack.list.iff hr.2, and_assoc]

theorem CoverRecord.readsBack :
    ReadsBack (fun r => r.source < UInt64.size ∧ r.target < UInt64.size) ofJson? toJson := by
  refine .of_fields (fun _ => rfl) (fun _ => rfl) (fun _ _ _ => rfl) (fun _ => by simp)
    fun {_ r r'} hr => ?_
  obtain ⟨source, target, effect⟩ := r
  obtain ⟨source', target', effect'⟩ := r'
  simp [Option.bind_eq_some_iff, word?_nat hr.1, word?_nat hr.2, Effect.readsBack.iff trivial,
    and_assoc]

/-- Every name in a snapshot fits into a word. -/
structure Snapshot.Narrow (s : Snapshot) : Prop where
  next : s.next < UInt64.size
  nodes : ∀ r ∈ s.nodes, r.id < UInt64.size
  edges : ∀ r ∈ s.edges, r.source < UInt64.size ∧ r.target < UInt64.size
  splits : ∀ r ∈ s.splits, r.source < UInt64.size ∧ ∀ b ∈ r.targets, b.target < UInt64.size
  covers : ∀ r ∈ s.covers, r.source < UInt64.size ∧ r.target < UInt64.size

theorem Snapshot.readsBack : ReadsBack Narrow ofJson? toJson := by
  refine .of_fields (fun _ => rfl) (fun _ => rfl) (fun _ _ _ => rfl) (fun _ => by simp)
    fun {_ s s'} hs => ?_
  obtain ⟨next, nodes, edges, splits, covers⟩ := s
  obtain ⟨next', nodes', edges', splits', covers'⟩ := s'
  simp [Option.bind_eq_some_iff, word?_nat hs.next, NodeRecord.readsBack.list.iff hs.nodes,
    EdgeRecord.readsBack.list.iff hs.edges, SplitRecord.readsBack.list.iff hs.splits,
    CoverRecord.readsBack.list.iff hs.covers, and_assoc]

end StateGraph
