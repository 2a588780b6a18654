-- Records read from rearranged values, and graphs loaded from the texts of these. Snapshots that
-- order their fields in another way, or leave out what is empty, load as the same graph.
import StateGraph.Proofs.RearrangedValues
import StateGraph.Proofs.TextRoundTrip

namespace StateGraph

open Json (Found Omissible Rearranged ReadsRearranged Thinned AlwaysKept alwaysKept_text
  alwaysKept_array alwaysKept_record omissibleNames readsRearranged_text readsRearranged_word
  list_eq_nil)

/-! ## Terms -/

namespace Term

open Json (record text tagged? fields? required record_eq)

/-- No term is written as something empty. -/
theorem not_omissible (name : Option String) (t : Term) : ¬ Omissible (name, t.toJson) := by
  intro h
  cases t <;> simpa [toJson, record] using h.empty

theorem alwaysKept (t : Term) : AlwaysKept t.toJson := by
  have hall : ∀ ts : List Term, (∀ t ∈ ts, AlwaysKept t.toJson) →
      AlwaysKept (.array (toJsonAll ts)) := by
    intro ts h
    rw [toJsonAll_eq]
    exact alwaysKept_array (List.forall_mem_map.mpr h)
  induction t using induct with
  | var name => exact alwaysKept_record (by simp [alwaysKept_text])
  | token text sort => exact alwaysKept_record (by simp [alwaysKept_text])
  | apply label args ih => exact alwaysKept_record (by simp [alwaysKept_text, hall args ih])
  | sequence items ih => exact alwaysKept_record (by simp [alwaysKept_text, hall items ih])

variable {j : Json} {room : Nat}

/-- Wherever the kind of a term stands, it is found, and so are the other fields. -/
theorem kind_found {kind : String} {fields : List (String × Json)}
    (h : Rearranged (record (("kind", text kind) :: fields)) j)
    (hnd : ("kind" :: fields.map (·.1)).Nodup) (hroom : j.depth ≤ room) :
    ∃ m rest vs, room = m + 1 ∧ tagged? "kind" j = some (text kind, rest) ∧
      fields? (fields.map (·.1)) rest = some vs ∧ List.Forall₂ (Found m) fields vs := by
  obtain ⟨hkind, hnd⟩ := List.nodup_cons.mp hnd
  obtain ⟨rest, htag, hrest, hdepth⟩ := h.tagged? (Json.depth_text kind) hkind hroom
  obtain ⟨m, vs, rfl, hvs, hall⟩ := hrest.fields? hnd hdepth
  exact ⟨m, rest, vs, rfl, htag, hvs, hall⟩

theorem terms?_found {name : String} {ts : List Term} {v : Option Json}
    (h : ∀ t ∈ ts, ∀ inner room j, Rearranged t.toJson j → j.depth ≤ room →
      build? inner room j = some t)
    (hname : name ∉ omissibleNames) (hv : Found room (name, .array (toJsonAll ts)) v) :
    build?.terms? room v = some ts := by
  obtain ⟨j, rfl, hj, hroom⟩ := hv.exists_given hname
  obtain ⟨items, m, rfl, rfl, hitems, hdepth⟩ := hj.of_array hroom
  rw [toJsonAll_eq, List.forall₂_map_left_iff] at hitems
  rw [build?.terms?]
  exact Json.mapM_eq_of_forall₂ hitems fun t ht j hj hsame =>
    h t ht true m j hsame (hdepth j hj)

/-- A term is built however it is said, inside another term or not. -/
theorem build?_rearranged (t : Term) (inner : Bool) (h : Rearranged t.toJson j)
    (hroom : j.depth ≤ room) : build? inner room j = some t := by
  induction t using induct generalizing inner room j with
  | var name =>
    obtain ⟨m, rest, vs, rfl, htag, hvs, hall⟩ := kind_found h (by simp) hroom
    simp only [List.forall₂_cons_left_iff, List.forall₂_nil_left_iff] at hall
    obtain ⟨v, _, hv, rfl, rfl⟩ := hall
    have hkind : Kind.ofJson? inner (text "variable") = some .var := rfl
    have hname := hv.required readsRearranged_text trivial (by decide)
    simp only [List.map_cons, List.map_nil] at hvs
    simp [build?, htag, hvs, hkind, hname]
  | token spelled sort =>
    obtain ⟨m, rest, vs, rfl, htag, hvs, hall⟩ := kind_found h (by simp) hroom
    simp only [List.forall₂_cons_left_iff, List.forall₂_nil_left_iff] at hall
    obtain ⟨v, _, hv, ⟨w, _, hw, rfl, rfl⟩, rfl⟩ := hall
    have hkind : Kind.ofJson? inner (text "token") = some .token := rfl
    have hspelled := hv.required readsRearranged_text trivial (by decide)
    have hsort := hw.required readsRearranged_text trivial (by decide)
    simp only [List.map_cons, List.map_nil] at hvs
    simp [build?, htag, hvs, hkind, hspelled, hsort]
  | apply label args ih =>
    obtain ⟨m, rest, vs, rfl, htag, hvs, hall⟩ := kind_found h (by simp) hroom
    simp only [List.forall₂_cons_left_iff, List.forall₂_nil_left_iff] at hall
    obtain ⟨v, _, hv, ⟨w, _, hw, rfl, rfl⟩, rfl⟩ := hall
    have hkind : Kind.ofJson? inner (text "apply") = some .apply := rfl
    have hlabel := hv.required readsRearranged_text trivial (by decide)
    have hargs := terms?_found (fun t ht inner _ _ => ih t ht inner) (by decide) hw
    simp only [List.map_cons, List.map_nil] at hvs
    simp [build?, htag, hvs, hkind, hlabel, hargs]
  | sequence items ih =>
    obtain ⟨m, rest, vs, rfl, htag, hvs, hall⟩ := kind_found h (by simp) hroom
    simp only [List.forall₂_cons_left_iff, List.forall₂_nil_left_iff] at hall
    obtain ⟨v, _, hv, rfl, rfl⟩ := hall
    have hkind : Kind.ofJson? inner (text "sequence") = some .sequence := rfl
    have hitems := terms?_found (fun t ht inner _ _ => ih t ht inner) (by decide) hv
    simp only [List.map_cons, List.map_nil] at hvs
    simp [build?, htag, hvs, hkind, hitems]

theorem readsRearranged : ReadsRearranged (fun _ => True) ofJson? toJson := by
  refine ⟨fun {room t j} _ hj hroom => ?_⟩
  rw [ofJson?, if_pos (alwaysKept t j room hj hroom)]
  exact build?_rearranged t false hj hroom

/-! ## Bindings -/

/-- In another order the same items are read, in the order in which they come. -/
theorem exists_mapM_perm {α β : Type} {read : α → Option β} {xs xs' : List α} (h : xs.Perm xs')
    {ys : List β} (hys : xs.mapM read = some ys) :
    ∃ ys', xs'.mapM read = some ys' ∧ ys'.Perm ys := by
  induction h generalizing ys with
  | nil => exact ⟨ys, hys, .refl _⟩
  | cons x _ ih =>
    simp only [List.mapM_cons, Option.bind_eq_bind, Option.bind_eq_some_iff, Option.pure_def,
      Option.some.injEq] at hys
    obtain ⟨y, hy, ys, hys, rfl⟩ := hys
    obtain ⟨ys', hys', hperm⟩ := ih hys
    exact ⟨y :: ys', by simp [hy, hys'], hperm.cons y⟩
  | swap x x' xs =>
    simp only [List.mapM_cons, Option.bind_eq_bind, Option.bind_eq_some_iff, Option.pure_def,
      Option.some.injEq] at hys
    obtain ⟨y, hy, _, ⟨y', hy', ys, hys, rfl⟩, rfl⟩ := hys
    exact ⟨y' :: y :: ys, by simp [hy, hy', hys], .swap ..⟩
  | trans _ _ ih₁ ih₂ =>
    obtain ⟨ys₁, hys₁, hperm₁⟩ := ih₁ hys
    obtain ⟨ys₂, hys₂, hperm₂⟩ := ih₂ hys₁
    exact ⟨ys₂, hys₂, hperm₂.trans hperm₁⟩

/-- One binding out of a field. -/
def binding? (room : Nat) (f : Json.Field) : Option (String × Term) :=
  return (← f.1, ← ofJson? room f.2)

theorem mapM_binding? {es : List (String × Term)} {kept : List Json.Field}
    (h : Thinned Rearranged (es.map fun e => (some e.1, e.2.toJson)) kept)
    (hroom : ∀ f ∈ kept, f.2.depth ≤ room) : kept.mapM (binding? room) = some es := by
  induction es generalizing kept with
  | nil =>
    cases h
    rfl
  | cons e es ih =>
    rw [List.map_cons] at h
    cases h with
    | drop homissible => exact absurd homissible (not_omissible _ _)
    | stay hsame hrest =>
      obtain ⟨hvalue, hroom⟩ := List.forall_mem_cons.mp hroom
      have hterm := readsRearranged.eq trivial hsame hvalue
      simp [binding?, hterm, ih hrest hroom]

theorem readsRearranged_bindings : ReadsRearranged (fun _ => True) bindings?
    (fun b => record (b.toList.map fun e => (e.1, e.2.toJson))) := by
  refine ⟨fun {room b j} _ hj hroom => ?_⟩
  rw [record_eq, List.map_map] at hj
  obtain ⟨kept, fields, m, rfl, rfl, hkept, horder, hdepth⟩ := hj.of_object hroom
  have hread := mapM_binding? hkept fun f hf => hdepth f (horder.mem_iff.mp hf)
  obtain ⟨es, hes, hperm⟩ := exists_mapM_perm horder hread
  have hbindings : bindings? (m + 1) (.object fields) =
      Table.ofList <$> fields.mapM (binding? m) := rfl
  rw [hbindings, hes, Option.map_eq_map, Option.map_some,
    Table.ofList_eq_of_perm b.keys_nodup hperm, Table.ofList_toList]

end Term

/-! ## Records -/

theorem Config.readsRearranged : ReadsRearranged (fun _ => True) ofJson? toJson := by
  refine .of_fields (fun _ => rfl) (fun _ _ _ => rfl) (fun _ => by simp) fun {_ c _} _ hall => ?_
  obtain ⟨term, constraints⟩ := c
  simp only [List.forall₂_cons_left_iff, List.forall₂_nil_left_iff] at hall
  obtain ⟨_, _, ht, ⟨_, _, hcs, rfl, rfl⟩, rfl⟩ := hall
  have hterm := ht.required Term.readsRearranged trivial (by decide)
  have hconstraints := hcs.optional Term.readsRearranged.list (fun _ _ => trivial) list_eq_nil
  simp [hterm, hconstraints]

/-- Both parts of an effect may be left out. -/
theorem Effect.readsRearranged : ReadsRearranged (fun _ => True) ofJson? toJson := by
  have hempty : ∀ b : Term.Bindings, Json.record (b.toList.map fun e => (e.1, e.2.toJson)) = .array [] ∨
      Json.record (b.toList.map fun e => (e.1, e.2.toJson)) = .object [] → b = ∅ := by
    intro b h
    have hnil : b.toList = [] := by simpa [Json.record] using h
    rw [← Table.ofList_toList b, hnil]
    rfl
  refine .of_fields (fun _ => rfl) (fun _ _ _ => rfl) (fun _ => by simp) fun {_ e _} _ hall => ?_
  obtain ⟨bindings, constraints⟩ := e
  simp only [List.forall₂_cons_left_iff, List.forall₂_nil_left_iff] at hall
  obtain ⟨_, _, hb, ⟨_, _, hcs, rfl, rfl⟩, rfl⟩ := hall
  have hbindings := hb.optional (a := bindings) Term.readsRearranged_bindings trivial (hempty _)
  have hconstraints := hcs.optional Term.readsRearranged.list (fun _ _ => trivial) list_eq_nil
  simp [hbindings, hconstraints]

theorem Step.readsRearranged : ReadsRearranged (fun _ => True) ofJson? toJson := by
  refine .of_fields (fun _ => rfl) (fun _ _ _ => rfl) (fun _ => by simp) fun {_ s _} _ hall => ?_
  obtain ⟨depth, rules, effect⟩ := s
  simp only [List.forall₂_cons_left_iff, List.forall₂_nil_left_iff] at hall
  obtain ⟨_, _, hd, ⟨_, _, hrs, ⟨_, _, he, rfl, rfl⟩, rfl⟩, rfl⟩ := hall
  have hdepth := hd.required readsRearranged_word depth.toNat_lt (by decide)
  have hrules := hrs.optional readsRearranged_text.list (fun _ _ => trivial) list_eq_nil
  have heffect := he.required Effect.readsRearranged trivial (by decide)
  simp [hdepth, hrules, heffect]

theorem NodeRecord.readsRearranged :
    ReadsRearranged (fun r => r.id < UInt64.size) ofJson? toJson := by
  refine .of_fields (fun _ => rfl) (fun _ _ _ => rfl) (fun _ => by simp) fun {_ r _} hr hall => ?_
  obtain ⟨id, config⟩ := r
  simp only [List.forall₂_cons_left_iff, List.forall₂_nil_left_iff] at hall
  obtain ⟨_, _, hi, ⟨_, _, hc, rfl, rfl⟩, rfl⟩ := hall
  have hid := hi.required readsRearranged_word hr (by decide)
  have hconfig := hc.required Config.readsRearranged trivial (by decide)
  simp [hid, hconfig]

theorem EdgeRecord.readsRearranged :
    ReadsRearranged (fun r => r.source < UInt64.size ∧ r.target < UInt64.size) ofJson? toJson := by
  refine .of_fields (fun _ => rfl) (fun _ _ _ => rfl) (fun _ => by simp) fun {_ r _} hr hall => ?_
  obtain ⟨source, target, steps⟩ := r
  simp only [List.forall₂_cons_left_iff, List.forall₂_nil_left_iff] at hall
  obtain ⟨_, _, hs, ⟨_, _, ht, ⟨_, _, hss, rfl, rfl⟩, rfl⟩, rfl⟩ := hall
  have hsource := hs.required readsRearranged_word hr.1 (by decide)
  have htarget := ht.required readsRearranged_word hr.2 (by decide)
  have hsteps := hss.required Step.readsRearranged.list (fun _ _ => trivial) (by decide)
  simp [hsource, htarget, hsteps]

theorem BranchRecord.readsRearranged :
    ReadsRearranged (fun r => r.target < UInt64.size) ofJson? toJson := by
  refine .of_fields (fun _ => rfl) (fun _ _ _ => rfl) (fun _ => by simp) fun {_ r _} hr hall => ?_
  obtain ⟨target, effect⟩ := r
  simp only [List.forall₂_cons_left_iff, List.forall₂_nil_left_iff] at hall
  obtain ⟨_, _, ht, ⟨_, _, he, rfl, rfl⟩, rfl⟩ := hall
  have htarget := ht.required readsRearranged_word hr (by decide)
  have heffect := he.required Effect.readsRearranged trivial (by decide)
  simp [htarget, heffect]

theorem SplitRecord.readsRearranged :
    ReadsRearranged (fun r => r.source < UInt64.size ∧ ∀ b ∈ r.targets, b.target < UInt64.size)
      ofJson? toJson := by
  refine .of_fields (fun _ => rfl) (fun _ _ _ => rfl) (fun _ => by simp) fun {_ r _} hr hall => ?_
  obtain ⟨source, shared, targets⟩ := r
  simp only [List.forall₂_cons_left_iff, List.forall₂_nil_left_iff] at hall
  obtain ⟨_, _, hs, ⟨_, _, he, ⟨_, _, hts, rfl, rfl⟩, rfl⟩, rfl⟩ := hall
  have hsource := hs.required readsRearranged_word hr.1 (by decide)
  have hshared := he.required Effect.readsRearranged trivial (by decide)
  have htargets := hts.required BranchRecord.readsRearranged.list hr.2 (by decide)
  simp [hsource, hshared, htargets]

theorem CoverRecord.readsRearranged :
    ReadsRearranged (fun r => r.source < UInt64.size ∧ r.target < UInt64.size) ofJson? toJson := by
  refine .of_fields (fun _ => rfl) (fun _ _ _ => rfl) (fun _ => by simp) fun {_ r _} hr hall => ?_
  obtain ⟨source, target, effect⟩ := r
  simp only [List.forall₂_cons_left_iff, List.forall₂_nil_left_iff] at hall
  obtain ⟨_, _, hs, ⟨_, _, ht, ⟨_, _, he, rfl, rfl⟩, rfl⟩, rfl⟩ := hall
  have hsource := hs.required readsRearranged_word hr.1 (by decide)
  have htarget := ht.required readsRearranged_word hr.2 (by decide)
  have heffect := he.required Effect.readsRearranged trivial (by decide)
  simp [hsource, htarget, heffect]

theorem Snapshot.readsRearranged : ReadsRearranged Narrow ofJson? toJson := by
  refine .of_fields (fun _ => rfl) (fun _ _ _ => rfl) (fun _ => by simp) fun {_ s _} hs hall => ?_
  obtain ⟨next, nodes, edges, splits, covers⟩ := s
  simp only [List.forall₂_cons_left_iff, List.forall₂_nil_left_iff] at hall
  obtain ⟨_, _, hn, ⟨_, _, hns, ⟨_, _, hes, ⟨_, _, hss, ⟨_, _, hcs, rfl, rfl⟩, rfl⟩, rfl⟩, rfl⟩,
    rfl⟩ := hall
  have hnext := hn.required readsRearranged_word hs.next (by decide)
  have hnodes := hns.required NodeRecord.readsRearranged.list hs.nodes (by decide)
  have hedges := hes.optional EdgeRecord.readsRearranged.list hs.edges list_eq_nil
  have hsplits := hss.optional SplitRecord.readsRearranged.list hs.splits list_eq_nil
  have hcovers := hcs.optional CoverRecord.readsRearranged.list hs.covers list_eq_nil
  simp [hnext, hnodes, hedges, hsplits, hcovers]

/-! ## Graphs -/

/-- A graph is loaded from every text of its snapshot that is not too deep, in whatever order the
text gives the fields of each object, with whatever blanks and escapes, and whichever of the fields
that may be left out it leaves out when they are empty. -/
theorem Reachable.ofText_rearranged {g : Graph} (h : Reachable g) (hnext : g.next ≤ maxNodeId)
    {j : Json} (hj : Rearranged g.toSnapshot.toJson j) (hdepth : j.depth ≤ Json.maxDepth)
    {text : String} (htext : Json.Spells (Json.tokens j) text.toList) :
    Graph.ofText text = .ok g := by
  have hparse : Json.parse? text = some j :=
    Json.parse?_of_spells (g.toSnapshot.plain.rearranged hj) htext
  have hread : Snapshot.ofJson? Json.maxDepth j = some g.toSnapshot :=
    Snapshot.readsRearranged.eq (h.sound.wellFormed hnext).narrow hj hdepth
  have hloaded := h.sound.ofSnapshot_toSnapshot hnext
  simp only [Graph.ofText, hparse, hread, hloaded]

/-- A snapshot of one node in the opposite order, with all of its empty fields left out. -/
theorem Reachable.ofText_rearranged_lone :
    Graph.ofText ("\x7b\"nodes\":[\x7b\"cterm\":\x7b\"term\":" ++
      "\x7b\"name\":\"X\\n\",\"kind\":\"variable\"\x7d\x7d,\"id\":1\x7d],\"next\":2\x7d") =
        .ok (Graph.empty.afterAll [.addNode { term := .var "X\n" }]) := by
  let c : Config := { term := .var "X\n" }
  let g := Graph.empty.afterAll [.addNode c]
  let term := Json.record [("name", .text "X\n"), ("kind", .text "variable")]
  let node := Json.record [("cterm", .record [("term", term)]), ("id", .nat 1)]
  let j := Json.record [("nodes", .array [node]), ("next", .nat 2)]
  have hg : Reachable g := ⟨.empty, _, .empty, rfl⟩
  have hsnapshot : g.toSnapshot = { next := 2, nodes := [{ id := 1, config := c }] } := by
    decide +kernel
  have hterm : Rearranged c.term.toJson term :=
    .object (.stay (.atom rfl) (.stay (.atom rfl) .nil)) (.swap ..)
  have hconfig : Rearranged c.toJson (.record [("term", term)]) :=
    .object (.stay hterm (.drop ⟨⟨"constraints", by decide, rfl⟩, .inl rfl⟩ .nil)) (.refl _)
  have hnode : Rearranged (NodeRecord.toJson { id := 1, config := c }) node :=
    .object (.stay (.atom rfl) (.stay hconfig .nil)) (.swap ..)
  have hj : Rearranged g.toSnapshot.toJson j := by
    rw [hsnapshot]
    refine .object (.stay (.atom rfl) (.stay (.array (.cons hnode .nil)) ?_)) (.swap ..)
    exact .drop ⟨⟨"edges", by decide, rfl⟩, .inl rfl⟩
      (.drop ⟨⟨"splits", by decide, rfl⟩, .inl rfl⟩
        (.drop ⟨⟨"covers", by decide, rfl⟩, .inl rfl⟩ .nil))
  have hspelled := (g.toSnapshot.plain.rearranged hj).spelledIn Json.blanks_compact 0 [] []
    (by rintro c rest ⟨⟩) .nil
  have htext : Json.renderAt .compact 0 j = "\x7b\"nodes\":[\x7b\"cterm\":\x7b\"term\":" ++
      "\x7b\"name\":\"X\\n\",\"kind\":\"variable\"\x7d\x7d,\"id\":1\x7d],\"next\":2\x7d" := by
    decide +kernel
  rw [List.append_nil, List.append_nil, htext] at hspelled
  exact hg.ofText_rearranged (by decide +kernel) hj (by decide +kernel) hspelled

end StateGraph
