-- Parts of a merging session that only ask. They leave the graph alone, and the
-- errors they fail with are the oracle's.
import StateGraph.Merge.Run
import StateGraph.Proofs.MaximalCliques
import StateGraph.Proofs.Reworking

namespace StateGraph

/-- The session once a question about two branches has been noted. -/
def Session.noted {σ : Type} (s : Session σ) (a b : Branch) (reply : Except Error Bool) (m : σ) :
    Session σ :=
  { s with
    memory := m
    questions := s.questions ++ [⟨a.node, b.node, a.config, b.config, reply⟩] }

namespace Merging

variable {σ α β : Type}

/-! ## Parts of a session -/

theorem update_run (change : Update α) (s : Session σ) :
    EStateM.run (update change) s = match change.run s.graph with
      | .ok a g => .ok a { s with graph := g }
      | .error e g => .error e { s with graph := g } := rfl

theorem consult_run (question : EStateM Error σ α) (s : Session σ) :
    EStateM.run (consult question) s = match question.run s.memory with
      | .ok a m => .ok a { s with memory := m }
      | .error e m => .error e { s with memory := m } := rfl

/-- A part of a session that leaves the graph alone, with `P` for what it gives
and `Q` for the errors it fails with. -/
def Quiet (P : α → Prop) (Q : Error → Prop) (x : Merging σ α) : Prop :=
  ∀ s, match EStateM.run x s with
    | .ok a s' => s'.graph = s.graph ∧ P a
    | .error e s' => s'.graph = s.graph ∧ Q e

variable {P : α → Prop} {R : β → Prop} {Q : Error → Prop}

theorem Quiet.pure {a : α} (h : P a) : Quiet P Q (Pure.pure a : Merging σ α) := fun _ => ⟨rfl, h⟩

theorem quiet_get : Quiet (fun _ => True) Q (get : Merging σ (Session σ)) := fun _ =>
  ⟨rfl, trivial⟩

theorem Quiet.bind {x : Merging σ α} {f : α → Merging σ β} (hx : Quiet P Q x)
    (hf : ∀ a, P a → Quiet R Q (f a)) : Quiet R Q (x >>= f) := by
  intro s
  have hxs := hx s
  rw [EStateM.run_bind]
  cases hrun : EStateM.run x s with
  | error e s' =>
    rw [hrun] at hxs
    exact hxs
  | ok a s' =>
    rw [hrun] at hxs
    have hfs := hf a hxs.2 s'
    simp only [← hxs.1]
    exact hfs

theorem Quiet.imp {P' : α → Prop} {Q' : Error → Prop} {x : Merging σ α} (h : Quiet P Q x)
    (hP : ∀ a, P a → P' a) (hQ : ∀ e, Q e → Q' e) : Quiet P' Q' x := by
  intro s
  have hs := h s
  cases hrun : EStateM.run x s with
  | error e s' =>
    rw [hrun] at hs
    exact hs.imp_right (hQ e)
  | ok a s' =>
    rw [hrun] at hs
    exact hs.imp_right (hP a)

/-- What is worked off one by one is worked off as a list. -/
theorem Quiet.mapM {R : α → β → Prop} {xs : List α} {f : α → Merging σ β}
    (h : ∀ x ∈ xs, Quiet (R x) Q (f x)) : Quiet (List.Forall₂ R xs) Q (xs.mapM f) := by
  induction xs with
  | nil => exact .pure .nil
  | cons x xs ih =>
    rw [List.mapM_cons]
    refine (h x List.mem_cons_self).bind fun y hy => ?_
    refine (ih fun z hz => h z (List.mem_cons_of_mem _ hz)).bind fun ys hys => ?_
    exact .pure (.cons hy hys)

/-- The same where the results tell what they are for. -/
theorem Quiet.mapM_keyed {key : β → α} {xs : List α} {f : α → Merging σ β}
    (h : ∀ x ∈ xs, Quiet (fun y => key y = x ∧ R y) Q (f x)) :
    Quiet (fun ys => ys.map key = xs ∧ ∀ y ∈ ys, R y) Q (xs.mapM f) := by
  refine (Quiet.mapM h).imp (fun ys hys => ⟨?_, fun y hy => ?_⟩) fun _ => id
  · have hkeys : List.Forall₂ (fun x k => k = x) xs (ys.map key) :=
      List.forall₂_map_right_iff.mpr (hys.imp fun _ _ hy => hy.1)
    exact List.forall₂_eq_eq_eq ▸ hkeys.flip
  · obtain ⟨x, -, hxy⟩ := BranchSet.exists_mem_of_forall₂ hys hy
    exact hxy.2

theorem Quiet.foldlM {xs : List β} {f : α → β → Merging σ α} {a : α}
    (h : ∀ a, P a → ∀ x ∈ xs, Quiet P Q (f a x)) (ha : P a) : Quiet P Q (xs.foldlM f a) := by
  induction xs generalizing a with
  | nil => exact .pure ha
  | cons x xs ih =>
    rw [List.foldlM_cons]
    refine (h a ha x List.mem_cons_self).bind fun b hb => ?_
    exact ih (fun c hc y hy => h c hc y (List.mem_cons_of_mem _ hy)) hb

theorem quiet_ofExcept {x : Except Error α} {a : α} (hx : x = .ok a) (ha : P a) :
    Quiet P Q (update (Update.ofExcept x) : Merging σ α) := by
  intro s
  rw [update_run, Update.ofExcept_run, hx]
  exact ⟨rfl, ha⟩

theorem quiet_consult (question : EStateM Error σ α) :
    Quiet (fun a => ∃ m m', question.run m = .ok a m')
      (fun e => ∃ m m', question.run m = .error e m') (consult question) := by
  intro s
  rw [consult_run]
  cases hrun : question.run s.memory with
  | ok a m => exact ⟨rfl, s.memory, m, hrun⟩
  | error e m => exact ⟨rfl, s.memory, m, hrun⟩

/-! ## Questions about pairs -/

/-- The oracle fails with an error on two branches of a split. -/
def AskFails (oracle : Oracle σ) (set : BranchSet) (e : Error) : Prop :=
  ∃ a b, (a, b) ∈ pairs set.branches ∧
    ∃ m m', (oracle.mergeable a.config b.config).run m = .error e m'

theorem mem_of_mem_pairs {xs : List α} {a b : α} (h : (a, b) ∈ pairs xs) : a ∈ xs ∧ b ∈ xs := by
  induction xs with
  | nil => simp [pairs] at h
  | cons x xs ih =>
    unfold pairs at h
    rcases List.mem_append.mp h with h | h
    · obtain ⟨y, hy, he⟩ := List.mem_map.mp h
      obtain ⟨rfl, rfl⟩ := Prod.mk.inj he
      exact ⟨List.mem_cons_self, List.mem_cons_of_mem _ hy⟩
    · exact (ih h).imp (List.mem_cons_of_mem _) (List.mem_cons_of_mem _)

theorem rel_of_mem_pairs {r : α → α → Prop} {xs : List α} (h : xs.Pairwise r) {a b : α}
    (hab : (a, b) ∈ pairs xs) : r a b := by
  induction xs with
  | nil => simp [pairs] at hab
  | cons x xs ih =>
    obtain ⟨hx, hxs⟩ := List.pairwise_cons.mp h
    unfold pairs at hab
    rcases List.mem_append.mp hab with hab | hab
    · obtain ⟨y, hy, he⟩ := List.mem_map.mp hab
      obtain ⟨rfl, rfl⟩ := Prod.mk.inj he
      exact hx y hy
    · exact ih hxs hab

theorem ask_run (oracle : Oracle σ) (a b : Branch) (s : Session σ) :
    EStateM.run (ask oracle a b) s =
      match (oracle.mergeable a.config b.config).run s.memory with
      | .ok yes m => .ok yes (s.noted a b (.ok yes) m)
      | .error e m => .error e (s.noted a b (.error e) m) := by
  simp only [ask, EStateM.run]
  cases oracle.mergeable a.config b.config s.memory <;> rfl

theorem quiet_ask (oracle : Oracle σ) (a b : Branch) :
    Quiet (fun _ => True)
      (fun e => ∃ m m', (oracle.mergeable a.config b.config).run m = .error e m')
      (ask oracle a b) := by
  intro s
  rw [ask_run]
  cases hrun : (oracle.mergeable a.config b.config).run s.memory with
  | ok yes m => exact ⟨rfl, trivial⟩
  | error e m => exact ⟨rfl, s.memory, m, hrun⟩

/-- The vertices of a graph are nodes of branches. -/
def Over (set : BranchSet) (found : Compatibility × Nat) : Prop :=
  ∀ v ∈ found.1.vertices, v ∈ set.branches.map (·.node)

theorem quiet_weigh (oracle : Oracle σ) {set : BranchSet} {found : Compatibility × Nat}
    (h : Over set found) {pair : Branch × Branch} (hpair : pair ∈ pairs set.branches) :
    Quiet (Over set) (AskFails oracle set) (weigh oracle found pair) := by
  obtain ⟨a, b⟩ := pair
  obtain ⟨ha, hb⟩ := mem_of_mem_pairs hpair
  have hanswer : ∀ (yes : Bool) (asked : Nat),
      Over set (if yes then found.1.connect a.node b.node else found.1, found.2 + asked) := by
    intro yes asked v hv
    cases yes with
    | false => exact h v hv
    | true =>
      rcases Compatibility.mem_vertices_connect.mp hv with hv | ⟨-, rfl | rfl⟩
      · exact h v hv
      · exact List.mem_map_of_mem ha
      · exact List.mem_map_of_mem hb
  unfold weigh
  refine quiet_get.bind fun s _ => ?_
  cases known? s.questions a.node b.node with
  | some yes => exact .pure (hanswer yes 0)
  | none =>
    refine ((quiet_ask oracle a b).imp (fun _ => id) ?_).bind fun yes _ => .pure (hanswer yes 1)
    exact fun e he => ⟨a, b, hpair, he⟩

end Merging

/-! ## Plans -/

/-- Cliques that branches of the split can be merged by, none in another. -/
structure Plan.Fits (p : Plan) : Prop where
  ascending : ∀ c ∈ p.cliques, c.Pairwise (· < ·)
  large : ∀ c ∈ p.cliques, 2 ≤ c.length
  mem : ∀ c ∈ p.cliques, ∀ m ∈ c, m ∈ p.set.branches.map (·.node)
  nodup : p.cliques.Nodup
  maximal : ∀ c ∈ p.cliques, ∀ d ∈ p.cliques, (∀ m ∈ c, m ∈ d) → c = d

namespace Merging

variable {σ : Type}

theorem quiet_compatibility (oracle : Oracle σ) (set : BranchSet) :
    Quiet (Over set) (AskFails oracle set) (compatibility oracle set) :=
  Quiet.foldlM (fun _ hfound _ hpair => quiet_weigh oracle hfound hpair)
    fun _ hv => Compatibility.mem_vertices_ofVertices.mp hv

/-- What is found at a split fits it. Only questions about its branches are
asked. -/
theorem quiet_discover (oracle : Oracle σ) (set : BranchSet) :
    Quiet (fun r => r.1.set = set ∧ r.1.Fits) (AskFails oracle set) (discover oracle set) := by
  refine (quiet_compatibility oracle set).bind fun found hfound => .pure ⟨rfl, ?_⟩
  refine ⟨fun c hc => ?_, fun c hc => ?_, fun c hc m hm => ?_, ?_, fun c hc d hd => ?_⟩
  · exact (Compatibility.mem_maximalCliques.mp hc).1
  · exact (Compatibility.mem_maximalCliques.mp hc).2.1
  · exact hfound m ((Compatibility.mem_maximalCliques.mp hc).2.2.prop.1 m (List.mem_toFinset.mpr hm))
  · exact Compatibility.maximalCliques_nodup ..
  · exact Compatibility.eq_of_mem_maximalCliques hc hd

end Merging

end StateGraph
