-- An oracle that notes what it is asked about two configurations. It answers as before, so a
-- session with it goes as the session without it does, however that ends.
import StateGraph.Proofs.AcceptedMerges

namespace StateGraph

/-- The oracle, and all it is asked about two configurations. -/
def Oracle.recording {σ : Type} (oracle : Oracle σ) : Oracle (σ × List (Config × Config)) where
  mergeable a b := fun (m, heard) =>
    match (oracle.mergeable a b).run m with
    | .ok yes m => .ok yes (m, heard ++ [(a, b)])
    | .error e m => .error e (m, heard ++ [(a, b)])
  mergeGuards guards := fun (m, heard) =>
    match (oracle.mergeGuards guards).run m with
    | .ok guard m => .ok guard (m, heard)
    | .error e m => .error e (m, heard)

/-- The session without the notes of its oracle. -/
def Session.unrecorded {σ τ : Type} (s : Session (σ × τ)) : Session σ :=
  { graph := s.graph, memory := s.memory.1, questions := s.questions }

section Unrecorded

variable {σ τ : Type} (s : Session (σ × τ))

@[simp]
theorem Session.unrecorded_graph : s.unrecorded.graph = s.graph := rfl

@[simp]
theorem Session.unrecorded_memory : s.unrecorded.memory = s.memory.1 := rfl

@[simp]
theorem Session.unrecorded_questions : s.unrecorded.questions = s.questions := rfl

end Unrecorded

namespace Merging

variable {σ τ α β : Type}

theorem recording_mergeable_run (oracle : Oracle σ) (a b : Config)
    (m : σ × List (Config × Config)) :
    (oracle.recording.mergeable a b).run m = match (oracle.mergeable a b).run m.1 with
      | .ok yes m' => .ok yes (m', m.2 ++ [(a, b)])
      | .error e m' => .error e (m', m.2 ++ [(a, b)]) := rfl

theorem recording_mergeGuards_run (oracle : Oracle σ) (guards : List Effect)
    (m : σ × List (Config × Config)) :
    (oracle.recording.mergeGuards guards).run m = match (oracle.mergeGuards guards).run m.1 with
      | .ok guard m' => .ok guard (m', m.2)
      | .error e m' => .error e (m', m.2) := rfl

/-! ## Notes left out -/

/-- How a part of a session ends, without the notes. -/
def unrecorded : EStateM.Result Error (Session (σ × τ)) α → EStateM.Result Error (Session σ) α
  | .ok a s => .ok a s.unrecorded
  | .error e s => .error e s.unrecorded

theorem stateOf_unrecorded (r : EStateM.Result Error (Session (σ × τ)) α) :
    stateOf (unrecorded r) = (stateOf r).unrecorded := by
  cases r <;> rfl

/-- A part of a session goes as another does, but for the notes. -/
def Records (x : Merging (σ × τ) α) (y : Merging σ α) : Prop :=
  ∀ s, unrecorded (EStateM.run x s) = EStateM.run y s.unrecorded

namespace Records

theorem pure (a : α) : Records (Pure.pure a : Merging (σ × τ) α) (Pure.pure a) := fun _ => rfl

theorem bind {x : Merging (σ × τ) α} {y : Merging σ α} {f : α → Merging (σ × τ) β}
    {k : α → Merging σ β} (hx : Records x y) (hf : ∀ a, Records (f a) (k a)) :
    Records (x >>= f) (y >>= k) := by
  intro s
  rw [EStateM.run_bind, EStateM.run_bind, ← hx s]
  cases EStateM.run x s with
  | ok a s' => exact hf a s'
  | error e s' => rfl

/-- The notes may not be looked at. -/
theorem get_bind {f : Session (σ × τ) → Merging (σ × τ) β} {k : Session σ → Merging σ β}
    (hf : ∀ s, Records (f s) (k s.unrecorded)) : Records (get >>= f) (get >>= k) := fun s => hf s s

theorem ite {P : Prop} [Decidable P] {x x' : Merging (σ × τ) α} {y y' : Merging σ α}
    (hthen : Records x y) (helse : Records x' y') :
    Records (if P then x else x') (if P then y else y') := by
  split
  · exact hthen
  · exact helse

theorem mapM {f : β → Merging (σ × τ) α} {k : β → Merging σ α} {xs : List β}
    (hf : ∀ x ∈ xs, Records (f x) (k x)) : Records (xs.mapM f) (xs.mapM k) := by
  induction xs with
  | nil => exact pure []
  | cons x xs ih =>
    rw [List.mapM_cons, List.mapM_cons]
    exact (hf x List.mem_cons_self).bind fun y =>
      (ih fun z hz => hf z (List.mem_cons_of_mem _ hz)).bind fun ys => pure (y :: ys)

theorem foldlM {f : α → β → Merging (σ × τ) α} {k : α → β → Merging σ α} {xs : List β}
    (hf : ∀ a, ∀ x ∈ xs, Records (f a x) (k a x)) (a : α) :
    Records (xs.foldlM f a) (xs.foldlM k a) := by
  induction xs generalizing a with
  | nil => exact pure a
  | cons x xs ih =>
    rw [List.foldlM_cons, List.foldlM_cons]
    exact (hf a x List.mem_cons_self).bind fun b =>
      ih (fun c y hy => hf c y (List.mem_cons_of_mem _ hy)) b

end Records

theorem records_update (change : Update α) :
    Records (update change : Merging (σ × τ) α) (update change) := by
  intro s
  rw [update_run, update_run, s.unrecorded_graph]
  cases change.run s.graph <;> rfl

/-! ## A recorded session -/

variable (oracle : Oracle σ)

theorem records_guards (guards : List Effect) :
    Records (consult (oracle.recording.mergeGuards guards))
      (consult (oracle.mergeGuards guards)) := by
  intro s
  rw [consult_run, consult_run, recording_mergeGuards_run, s.unrecorded_memory]
  cases (oracle.mergeGuards guards).run s.memory.1 <;> rfl

theorem records_weigh (found : Compatibility × Nat) (pair : Branch × Branch) :
    Records (weigh oracle.recording found pair) (weigh oracle found pair) := by
  obtain ⟨a, b⟩ := pair
  intro s
  rw [weigh_run, weigh_run, recording_mergeable_run, s.unrecorded_questions,
    s.unrecorded_memory]
  cases known? s.questions a.node b.node with
  | some yes => rfl
  | none => cases (oracle.mergeable a.config b.config).run s.memory.1 <;> rfl

theorem records_discover (set : BranchSet) :
    Records (discover oracle.recording set) (discover oracle set) :=
  (Records.foldlM (fun found pair _ => records_weigh oracle found pair) _).bind fun _ => .pure _

theorem records_carryOut (p : Plan) :
    Records (carryOut oracle.recording p) (carryOut oracle p) := by
  have hprepare : ∀ c ∈ p.cliques,
      Records (prepare oracle.recording p.set c) (prepare oracle p.set c) := fun c _ =>
    (records_update _).bind fun _ => (records_guards oracle _).bind fun _ => .pure _
  unfold carryOut
  refine .get_bind fun s => (records_update _).bind fun config => ?_
  split
  · exact (records_update _).bind fun bs => (records_update _).bind fun r => .pure _
  · exact (Records.mapM hprepare).bind fun parts => records_update _

theorem records_carryOutIfCurrent (p : Plan) :
    Records (carryOutIfCurrent oracle.recording p) (carryOutIfCurrent oracle p) :=
  .get_bind fun _ => .ite (records_carryOut oracle p) (.pure [])

theorem records_rounds (limit : Nat) (report : Report) :
    Records (rounds oracle.recording limit report) (rounds oracle limit report) := by
  induction limit generalizing report with
  | zero => exact .pure report
  | succ limit ih =>
    unfold rounds roundsBy
    refine .get_bind fun s =>
      (Records.mapM fun set _ => records_discover oracle set).bind fun found => ?_
    refine .ite (.pure _) ?_
    refine (Records.mapM fun p _ => records_carryOutIfCurrent oracle p).bind fun all =>
      (records_update _).bind fun _ => ?_
    exact .ite (.pure _) (ih _)

end Merging

end StateGraph
