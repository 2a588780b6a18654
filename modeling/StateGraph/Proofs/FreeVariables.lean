-- Free variables under a substitution. What a substitution makes of a term hangs on the images
-- of its free variables and on nothing else: they hold all variables of the result, and two
-- substitutions make the same of a term exactly if they agree on each of them.
import StateGraph.Proofs.Lookups
import StateGraph.Term.Basic

namespace StateGraph.Term

variable {s s' : Bindings} {x y : String}

/-! ## The variables of a term, by its parts -/

@[simp]
theorem mem_freeVars_var {name : String} : x ∈ (var name).freeVars ↔ x = name := by
  simp [mem_freeVars, varNames]

@[simp]
theorem not_mem_freeVars_token {text sort : String} : x ∉ (token text sort).freeVars := by
  simp [mem_freeVars, varNames]

@[simp]
theorem mem_freeVars_apply {label : String} {args : List Term} :
    x ∈ (apply label args).freeVars ↔ ∃ a ∈ args, x ∈ a.freeVars := by
  simp [mem_freeVars, varNames, varNamesAll_eq]

@[simp]
theorem mem_freeVars_sequence {items : List Term} :
    x ∈ (sequence items).freeVars ↔ ∃ a ∈ items, x ∈ a.freeVars := by
  simp [mem_freeVars, varNames, varNamesAll_eq]

/-! ## Images of variables -/

theorem image_of_get? {u : Term} (h : s.get? x = some u) : image s x = u := by
  simp [image, h]

theorem image_of_not_mem (h : x ∉ s) : image s x = var x := by
  simp [image, Table.not_mem_iff.mp h]

theorem image_eq_var_iff : image s x = var x ↔ s.get? x = none ∨ s.get? x = some (var x) := by
  unfold image
  cases s.get? x <;> simp

/-! ## Variables of the result -/

/-- A list of terms, each with its variables put in, has the variables of the images. -/
theorem exists_mem_substitute {ts : List Term}
    (h : ∀ t ∈ ts, x ∈ (t.substitute s).freeVars ↔ ∃ y ∈ t.freeVars, x ∈ (image s y).freeVars) :
    (∃ t ∈ substituteAll s ts, x ∈ t.freeVars) ↔
      ∃ y, (∃ t ∈ ts, y ∈ t.freeVars) ∧ x ∈ (image s y).freeVars := by
  rw [substituteAll_eq]
  constructor
  · intro hx
    obtain ⟨_, hput, hx⟩ := hx
    obtain ⟨t, ht, rfl⟩ := List.mem_map.mp hput
    obtain ⟨y, hy, hx⟩ := (h t ht).mp hx
    exact ⟨y, ⟨t, ht, hy⟩, hx⟩
  · intro hx
    obtain ⟨y, ⟨t, ht, hy⟩, hx⟩ := hx
    exact ⟨_, List.mem_map_of_mem ht, (h t ht).mpr ⟨y, hy, hx⟩⟩

theorem mem_freeVars_substitute {t : Term} :
    x ∈ (t.substitute s).freeVars ↔ ∃ y ∈ t.freeVars, x ∈ (image s y).freeVars := by
  induction t using induct with
  | var name => simp [substitute]
  | token text sort => simp [substitute]
  | apply label args ih => simp only [substitute, mem_freeVars_apply, exists_mem_substitute ih]
  | sequence items ih => simp only [substitute, mem_freeVars_sequence, exists_mem_substitute ih]

/-! ## Substitutions that agree -/

theorem substituteAll_eq_iff {ts : List Term}
    (h : ∀ t ∈ ts, t.substitute s = t.substitute s' ↔ ∀ x ∈ t.freeVars, image s x = image s' x) :
    substituteAll s ts = substituteAll s' ts ↔
      ∀ x, (∃ t ∈ ts, x ∈ t.freeVars) → image s x = image s' x := by
  rw [substituteAll_eq, substituteAll_eq, List.map_inj_left]
  constructor
  · intro hall x hx
    obtain ⟨t, ht, hx⟩ := hx
    exact (h t ht).mp (hall t ht) x hx
  · intro hall t ht
    exact (h t ht).mpr fun x hx => hall x ⟨t, ht, hx⟩

/-- Two substitutions make the same of a term exactly if they agree on its free variables. -/
theorem substitute_eq_iff {t : Term} :
    t.substitute s = t.substitute s' ↔ ∀ x ∈ t.freeVars, image s x = image s' x := by
  induction t using induct with
  | var name => simp [substitute]
  | token text sort => simp [substitute]
  | apply label args ih => simp [substitute, substituteAll_eq_iff ih]
  | sequence items ih => simp [substitute, substituteAll_eq_iff ih]

theorem substitute_eq_self_iff {t : Term} :
    t.substitute s = t ↔ ∀ x ∈ t.freeVars, image s x = var x := by
  have hiff : t.substitute s = t.substitute ∅ ↔ ∀ x ∈ t.freeVars, image s x = image ∅ x :=
    substitute_eq_iff
  rw [substitute_empty] at hiff
  exact hiff

/-- The free variables of a term settle what a substitution does to it. Those that are bound
give way to the variables of their images and all others stay. Two substitutions make the
same of the term exactly if they give the same image to each free variable, and one leaves it
as it is exactly if it binds no free variable to anything but itself. -/
theorem substitution_settled (t : Term) (s s' : Bindings) :
    (∀ x, x ∈ (t.substitute s).freeVars ↔
      (x ∈ t.freeVars ∧ x ∉ s) ∨ ∃ y ∈ t.freeVars, ∃ u, s.get? y = some u ∧ x ∈ u.freeVars) ∧
    (t.substitute s = t.substitute s' ↔ ∀ x ∈ t.freeVars, image s x = image s' x) ∧
    (t.substitute s = t ↔ ∀ x ∈ t.freeVars, s.get? x = none ∨ s.get? x = some (var x)) := by
  refine ⟨fun x => ?_, substitute_eq_iff, ?_⟩
  · rw [mem_freeVars_substitute]
    constructor
    · intro hx
      obtain ⟨y, hy, hx⟩ := hx
      by_cases hbound : y ∈ s
      · obtain ⟨u, hu⟩ := Table.mem_iff.mp hbound
        rw [image_of_get? hu] at hx
        exact Or.inr ⟨y, hy, u, hu, hx⟩
      · rw [image_of_not_mem hbound, mem_freeVars_var] at hx
        subst hx
        exact Or.inl ⟨hy, hbound⟩
    · rintro (⟨hx, hfree⟩ | ⟨y, hy, u, hu, hx⟩)
      · refine ⟨x, hx, ?_⟩
        rw [image_of_not_mem hfree, mem_freeVars_var]
      · refine ⟨y, hy, ?_⟩
        rwa [image_of_get? hu]
  · rw [substitute_eq_self_iff]
    simp only [image_eq_var_iff]

/-- A variable that is bound to itself stays, one that is bound to another gives way to it, and
nothing that is put in is searched again. -/
example :
    let s : Bindings := .ofList [("X", .var "X"), ("Y", .apply "f" [.var "Z"]), ("Z", .token "1" "Int")]
    ((apply "g" [.var "X", .sequence [.var "Y", .var "W"]]).substitute s).freeVars.keys =
      ["W", "X", "Z"] := by decide +kernel

end StateGraph.Term
