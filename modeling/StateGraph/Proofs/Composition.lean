-- Effects one after another. To apply a composed effect is to apply the first effect and
-- then the second one: bindings are put in all at once, so what the first has put in is met
-- by the second and by nothing else. Composition is associative, and the effect that does
-- nothing may stand on either side.
import StateGraph.Effect

namespace StateGraph.Effect

open Term (substitute substituteAll_eq substitute_empty)

/-! ## What a composed effect puts in -/

/-- A variable that the first effect binds has that term, with the second effect put into
it. Any other variable is left to the second effect. -/
theorem get?_compose (e first : Effect) (x : String) :
    (e.compose first).bindings.get? x =
      ((first.bindings.get? x).map (substitute e.bindings)).or (e.bindings.get? x) := by
  unfold compose
  rw [Table.get?_insertAll_toList, Table.get?_mapValues]

theorem image_compose (e first : Effect) (x : String) :
    Term.image (e.compose first).bindings x =
      (Term.image first.bindings x).substitute e.bindings := by
  unfold Term.image
  rw [get?_compose]
  cases first.bindings.get? x with
  | none => simp [substitute, Term.image]
  | some t => simp

/-- All bindings of a composed effect at once do what those of the first do and then those
of the second. -/
theorem substitute_compose (e first : Effect) (t : Term) :
    t.substitute (e.compose first).bindings =
      (t.substitute first.bindings).substitute e.bindings := by
  -- a variable is the only term that bindings look at
  induction t using Term.induct with
  | var x => exact image_compose e first x
  | token text sort => rfl
  | apply label args ih =>
    simp only [substitute, substituteAll_eq, List.map_map]
    rw [List.map_congr_left ih]
    rfl
  | sequence items ih =>
    simp only [substitute, substituteAll_eq, List.map_map]
    rw [List.map_congr_left ih]
    rfl

/-- Formulas go through a composed effect as they go through its two parts. -/
theorem map_substitute_compose (e first : Effect) (fs : List Formula) :
    fs.map (substitute (e.compose first).bindings) =
      (fs.map (substitute first.bindings)).map (substitute e.bindings) := by
  rw [List.map_map]
  exact List.map_congr_left fun f _ => substitute_compose e first f

theorem eq_of_parts {e e' : Effect} (hbindings : ∀ x, e.bindings.get? x = e'.bindings.get? x)
    (hconstraints : e.constraints = e'.constraints) : e = e' := by
  obtain ⟨bindings, constraints⟩ := e
  obtain rfl : bindings = e'.bindings := Table.ext_get? hbindings
  obtain rfl : constraints = e'.constraints := hconstraints
  rfl

/-! ## The laws -/

theorem apply_compose (e first : Effect) (c : Config) :
    (e.compose first).apply c = e.apply (first.apply c) := by
  unfold apply
  rw [substitute_compose, map_substitute_compose]
  simp [compose]

theorem compose_assoc (a b c : Effect) : (a.compose b).compose c = a.compose (b.compose c) := by
  apply eq_of_parts
  · intro x
    -- the binding of the first effect that has one, with all later effects put into it
    simp only [get?_compose]
    cases c.bindings.get? x with
    | none => simp
    | some t => simp [substitute_compose]
  · have hconstraints : ∀ e first : Effect, (e.compose first).constraints =
        first.constraints.map (substitute e.bindings) ++ e.constraints := fun _ _ => rfl
    simp only [hconstraints, map_substitute_compose, List.map_append, List.append_assoc]

theorem map_substitute_top (fs : List Formula) : fs.map (substitute top.bindings) = fs := by
  have hid : ∀ f ∈ fs, substitute top.bindings f = f := fun f _ => substitute_empty f
  rw [List.map_congr_left hid, List.map_id']

theorem top_apply (c : Config) : top.apply c = c := by
  have hterm : c.term.substitute top.bindings = c.term := substitute_empty c.term
  unfold apply
  rw [hterm, map_substitute_top]
  simp [top]

theorem top_compose (e : Effect) : top.compose e = e := by
  apply eq_of_parts
  · intro x
    have hid : substitute top.bindings = id := funext substitute_empty
    rw [get?_compose, hid]
    simp [top]
  · unfold compose
    simp only [map_substitute_top]
    simp [top]

theorem compose_top (e : Effect) : e.compose top = e := by
  apply eq_of_parts
  · intro x
    rw [get?_compose]
    simp [top]
  · simp [compose, top]

/-- Effects act on configurations one after another, in whatever way they are put
together, and the empty effect does nothing. -/
theorem composition_acts (a b c : Effect) (config : Config) :
    (a.compose b).apply config = a.apply (b.apply config) ∧
      (a.compose b).compose c = a.compose (b.compose c) ∧
      top.compose a = a ∧ a.compose top = a ∧ top.apply config = config :=
  ⟨apply_compose a b config, compose_assoc a b c, top_compose a, compose_top a, top_apply config⟩

/-- Variables that both effects bind, that are bound to one another, and to themselves. -/
example :
    let first : Effect := { bindings := .ofList [("X", .var "Y"), ("Y", .var "X")] }
    let second : Effect :=
      { bindings := .ofList [("Y", .apply "f" [.var "Y"]), ("Z", .var "X")] }
    (second.compose first).bindings.toList =
      [("X", .apply "f" [.var "Y"]), ("Y", .var "X"), ("Z", .var "X")] := by decide +kernel

end StateGraph.Effect
