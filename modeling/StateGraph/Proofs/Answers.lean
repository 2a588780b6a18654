-- What the log of a session says after splits have been asked about. Every answer
-- that is new is about two nodes as they are, and a positive one puts both into a
-- clique; and whatever two nodes stand in a clique, some answer has put them there.
import StateGraph.Proofs.Asking

namespace StateGraph

/-- The oracle has said, from some memory, that two configurations may share a
path. -/
def Oracle.Accepts {σ : Type} (oracle : Oracle σ) (a b : Config) : Prop :=
  ∃ m m', (oracle.mergeable a b).run m = .ok true m'

/-- Two nodes of a graph hold configurations that the oracle has accepted. -/
def Graph.Accepted {σ : Type} (g : Graph) (oracle : Oracle σ) (a b : NodeId) : Prop :=
  ∃ ca cb, g.nodes.get? a = some ca ∧ g.nodes.get? b = some cb ∧ oracle.Accepts ca cb

namespace Merging

variable {σ α β : Type}

/-! ## Parts of a session that end well -/

/-- If a part of a session ends well, `Q` holds of what it gives and where it
ends. -/
def Ensures (s : Session σ) (x : Merging σ α) (Q : α → Session σ → Prop) : Prop :=
  ∀ a s', EStateM.run x s = .ok a s' → Q a s'

variable {s : Session σ} {Q : α → Session σ → Prop} {R : β → Session σ → Prop}

theorem Ensures.pure {a : α} (h : Q a s) : Ensures s (Pure.pure a : Merging σ α) Q := by
  intro b s' hrun
  cases hrun
  exact h

theorem Ensures.bind {x : Merging σ α} {f : α → Merging σ β} (hx : Ensures s x Q)
    (hf : ∀ a s', Q a s' → Ensures s' (f a) R) : Ensures s (x >>= f) R := by
  intro b s' hrun
  rw [EStateM.run_bind] at hrun
  cases hxs : EStateM.run x s with
  | error e s₁ =>
    rw [hxs] at hrun
    cases hrun
  | ok a s₁ =>
    rw [hxs] at hrun
    exact hf a s₁ (hx a s₁ hxs) b s' hrun

theorem Ensures.foldlM {xs : List β} {f : α → β → Merging σ α} {a : α}
    (h : ∀ a s x, x ∈ xs → Q a s → Ensures s (f a x) Q) (ha : Q a s) :
    Ensures s (xs.foldlM f a) Q := by
  induction xs generalizing a s with
  | nil => exact .pure ha
  | cons x xs ih =>
    rw [List.foldlM_cons]
    refine (h a s x List.mem_cons_self ha).bind fun b s' hb => ?_
    exact ih (fun c s'' y hy => h c s'' y (List.mem_cons_of_mem _ hy)) hb

theorem Ensures.mapM {I : Session σ → Prop} {xs : List β} {f : β → Merging σ α}
    (h : ∀ x ∈ xs, ∀ s, I s → Ensures s (f x) fun _ => I) (hs : I s) :
    Ensures s (xs.mapM f) fun _ => I := by
  induction xs generalizing s with
  | nil => exact .pure hs
  | cons x xs ih =>
    rw [List.mapM_cons]
    refine (h x List.mem_cons_self s hs).bind fun y s₁ hs₁ => ?_
    exact (ih (fun z hz => h z (List.mem_cons_of_mem _ hz)) hs₁).bind fun ys s₂ hs₂ => .pure hs₂

/-! ## What holds wherever a part of a session ends -/

/-- A part of a session that ends well keeps `I`. One that starts with `I` and fails ends
with `J`. -/
def Maintains (I J : Session σ → Prop) (x : Merging σ α) : Prop :=
  ∀ s, I s → match EStateM.run x s with
    | .ok _ s' => I s'
    | .error _ s' => J s'

section Maintains

variable {I J : Session σ → Prop}

theorem Maintains.pure (a : α) : Maintains I J (Pure.pure a : Merging σ α) := fun _ hs => hs

theorem maintains_get : Maintains I J (get : Merging σ (Session σ)) := fun _ hs => hs

theorem Maintains.bind {x : Merging σ α} {f : α → Merging σ β} (hx : Maintains I J x)
    (hf : ∀ a, Maintains I J (f a)) : Maintains I J (x >>= f) := by
  intro s hs
  have hxs := hx s hs
  rw [EStateM.run_bind]
  cases hrun : EStateM.run x s with
  | error e s' =>
    rw [hrun] at hxs
    exact hxs
  | ok a s' =>
    rw [hrun] at hxs
    exact hf a s' hxs

theorem Maintains.foldlM {xs : List β} {f : α → β → Merging σ α}
    (h : ∀ a, ∀ x ∈ xs, Maintains I J (f a x)) (a : α) : Maintains I J (xs.foldlM f a) := by
  induction xs generalizing a with
  | nil => exact .pure a
  | cons x xs ih =>
    rw [List.foldlM_cons]
    exact (h a x List.mem_cons_self).bind fun b =>
      ih (fun c y hy => h c y (List.mem_cons_of_mem _ hy)) b

theorem Maintains.mapM {xs : List β} {f : β → Merging σ α}
    (h : ∀ x ∈ xs, Maintains I J (f x)) : Maintains I J (xs.mapM f) := by
  induction xs with
  | nil => exact .pure []
  | cons x xs ih =>
    rw [List.mapM_cons]
    exact (h x List.mem_cons_self).bind fun y =>
      (ih fun z hz => h z (List.mem_cons_of_mem _ hz)).bind fun ys => .pure (y :: ys)

theorem Maintains.stateOf {x : Merging σ α} (h : Maintains I J x) (hJ : ∀ s, I s → J s)
    (hs : I s) : J (stateOf (EStateM.run x s)) := by
  have hend := h s hs
  cases hrun : EStateM.run x s with
  | error e s' =>
    rw [hrun] at hend
    exact hend
  | ok a s' =>
    rw [hrun] at hend
    exact hJ s' hend

end Maintains

/-! ## Weighing the pairs of a split -/

/-- What has been found out about pairs since a session stood at `s`. -/
structure Weighed (oracle : Oracle σ) (s : Session σ) (found : Compatibility)
    (s' : Session σ) : Prop where
  graph : s'.graph = s.graph
  kept : ∀ q ∈ s.questions, q ∈ s'.questions
  new : ∀ q ∈ s'.questions, q.reply = .ok true → q ∈ s.questions ∨
    s.graph.Accepted oracle q.first q.second ∧ found.connected q.first q.second = true
  backed : ∀ a b, a < b → found.connected a b = true →
    ∃ q ∈ s'.questions, q.reply = .ok true ∧ q.first = a ∧ q.second = b
  vertex : ∀ a b, found.connected a b = true → a ∈ found.vertices

theorem weighed_start (oracle : Oracle σ) (s : Session σ) (ids : List NodeId) :
    Weighed oracle s (.ofVertices ids) s where
  graph := rfl
  kept := fun _ hq => hq
  new := fun _ hq _ => Or.inl hq
  backed := fun _ _ _ hab => absurd hab Compatibility.not_connected_ofVertices
  vertex := fun _ _ hab => absurd hab Compatibility.not_connected_ofVertices

theorem known?_eq_some {questions : List Question} {a b : NodeId} {yes : Bool}
    (h : known? questions a b = some yes) :
    ∃ q ∈ questions, q.reply = .ok yes ∧ q.first = a ∧ q.second = b := by
  obtain ⟨q, hq, hreply⟩ := List.exists_of_findSome?_eq_some h
  split at hreply
  · rename_i hnodes
    cases hans : q.reply with
    | error e =>
      rw [hans] at hreply
      cases hreply
    | ok yes =>
      rw [hans] at hreply
      obtain rfl := Option.some.inj hreply
      exact ⟨q, hq, hans, hnodes⟩
  · cases hreply

section Weighed

variable {oracle : Oracle σ} {found : Compatibility} {s₁ s₂ : Session σ} {a b : NodeId}

/-- A pair with a positive answer in the log goes together. -/
theorem Weighed.connect (h : Weighed oracle s found s₁) (hlt : a < b)
    (hgraph : s₂.graph = s₁.graph) (hkept : ∀ q ∈ s₁.questions, q ∈ s₂.questions)
    (hnew : ∀ q ∈ s₂.questions, q ∈ s₁.questions ∨
      q.first = a ∧ q.second = b ∧ s.graph.Accepted oracle a b)
    (hback : ∃ q ∈ s₂.questions, q.reply = .ok true ∧ q.first = a ∧ q.second = b) :
    Weighed oracle s (found.connect a b) s₂ where
  graph := hgraph.trans h.graph
  kept := fun q hq => hkept q (h.kept q hq)
  new := by
    intro q hq hreply
    rcases hnew q hq with hq | ⟨rfl, rfl, haccepted⟩
    · refine (h.new q hq hreply).imp_right fun ⟨haccepted, hconnected⟩ => ⟨haccepted, ?_⟩
      exact Compatibility.connected_connect.mpr (Or.inl hconnected)
    · refine Or.inr ⟨haccepted, Compatibility.connected_connect.mpr (Or.inr ?_)⟩
      exact ⟨Nat.ne_of_lt hlt, Or.inl ⟨rfl, rfl⟩⟩
  backed := by
    intro x y hxy hconnected
    rcases Compatibility.connected_connect.mp hconnected with hold | ⟨-, ⟨rfl, rfl⟩ | ⟨rfl, rfl⟩⟩
    · obtain ⟨q, hq, hpositive⟩ := h.backed x y hxy hold
      exact ⟨q, hkept q hq, hpositive⟩
    · exact hback
    · exact absurd hxy (Nat.lt_asymm hlt)
  vertex := by
    intro x y hconnected
    rw [Compatibility.mem_vertices_connect]
    rcases Compatibility.connected_connect.mp hconnected with hold | ⟨hne, ⟨rfl, -⟩ | ⟨rfl, -⟩⟩
    · exact Or.inl (h.vertex x y hold)
    · exact Or.inr ⟨hne, Or.inl rfl⟩
    · exact Or.inr ⟨hne, Or.inr rfl⟩

/-- A negative answer only lengthens the log. -/
theorem Weighed.decline (h : Weighed oracle s found s₁) (hgraph : s₂.graph = s₁.graph)
    (hkept : ∀ q ∈ s₁.questions, q ∈ s₂.questions)
    (hnew : ∀ q ∈ s₂.questions, q ∈ s₁.questions ∨ q.reply = .ok false) :
    Weighed oracle s found s₂ where
  graph := hgraph.trans h.graph
  kept := fun q hq => hkept q (h.kept q hq)
  new := by
    intro q hq hreply
    rcases hnew q hq with hq | hno
    · exact h.new q hq hreply
    · rw [hno] at hreply
      cases hreply
  backed := by
    intro x y hxy hconnected
    obtain ⟨q, hq, hpositive⟩ := h.backed x y hxy hconnected
    exact ⟨q, hkept q hq, hpositive⟩
  vertex := h.vertex

end Weighed

/-- How a pair is weighed: by what the log says of it, or else by what the oracle then
says. -/
theorem weigh_run (oracle : Oracle σ) (found : Compatibility × Nat) (a b : Branch) (s : Session σ) :
    EStateM.run (weigh oracle found (a, b)) s =
      match known? s.questions a.node b.node with
      | some yes => .ok (if yes then found.1.connect a.node b.node else found.1, found.2) s
      | none => match (oracle.mergeable a.config b.config).run s.memory with
        | .ok yes m => .ok (if yes then found.1.connect a.node b.node else found.1, found.2 + 1)
            (s.noted a b (.ok yes) m)
        | .error e m => .error e (s.noted a b (.error e) m) := by
  simp only [weigh, EStateM.run_bind, EStateM.run_get]
  cases known? s.questions a.node b.node with
  | some yes => rfl
  | none =>
    simp only [EStateM.run_bind, ask_run]
    cases (oracle.mergeable a.config b.config).run s.memory <;> rfl

theorem weigh_ok {oracle : Oracle σ} {found found' : Compatibility × Nat} {a b : Branch}
    {s' : Session σ} (hrun : EStateM.run (weigh oracle found (a, b)) s = .ok found' s') :
    ∃ yes, found'.1 = (if yes then found.1.connect a.node b.node else found.1) ∧
      (known? s.questions a.node b.node = some yes ∧ s' = s ∨
        ∃ m, (oracle.mergeable a.config b.config).run s.memory = .ok yes m ∧ s' = { s with
          memory := m
          questions := s.questions ++ [⟨a.node, b.node, a.config, b.config, .ok yes⟩] }) := by
  rw [weigh_run] at hrun
  cases hknown : known? s.questions a.node b.node with
  | some yes =>
    rw [hknown] at hrun
    cases hrun
    exact ⟨yes, rfl, Or.inl ⟨rfl, rfl⟩⟩
  | none =>
    rw [hknown] at hrun
    cases hans : (oracle.mergeable a.config b.config).run s.memory with
    | error e m =>
      simp only [hans] at hrun
      cases hrun
    | ok yes m =>
      simp only [hans] at hrun
      cases hrun
      exact ⟨yes, rfl, Or.inr ⟨m, rfl, rfl⟩⟩

/-- Two branches that are as they were found are weighed. -/
theorem weigh_ensures {oracle : Oracle σ} {found : Compatibility × Nat} {s' : Session σ}
    {a b : Branch} (h : Weighed oracle s found.1 s') (hlt : a.node < b.node)
    (ha : s.graph.nodes.get? a.node = some a.config)
    (hb : s.graph.nodes.get? b.node = some b.config) :
    Ensures s' (weigh oracle found (a, b)) fun found' s'' => Weighed oracle s found'.1 s'' := by
  intro found' s'' hrun
  obtain ⟨yes, hfound, ⟨hknown, rfl⟩ | ⟨m, hans, rfl⟩⟩ := weigh_ok hrun
  · rw [hfound]
    cases yes with
    | false => exact h
    | true => exact h.connect hlt rfl (fun _ hq => hq) (fun _ hq => Or.inl hq) (known?_eq_some hknown)
  · have hkept : ∀ q ∈ s'.questions, q ∈ s'.questions ++
        [⟨a.node, b.node, a.config, b.config, .ok yes⟩] := fun q hq => List.mem_append_left _ hq
    rw [hfound]
    cases yes with
    | false =>
      refine h.decline rfl hkept fun q hq => ?_
      refine (List.mem_append.mp hq).imp_right fun hq => ?_
      rw [List.mem_singleton.mp hq]
    | true =>
      refine h.connect hlt rfl hkept (fun q hq => ?_) ?_
      · refine (List.mem_append.mp hq).imp_right fun hq => ?_
        rw [List.mem_singleton.mp hq]
        exact ⟨rfl, rfl, a.config, b.config, ha, hb, s'.memory, m, hans⟩
      · exact ⟨_, List.mem_append_right _ (List.mem_singleton_self _), rfl, rfl, rfl⟩

/-! ## Cliques and the log -/

/-- What some plans have to do with the questions put while they were made: a
positive answer that is new is about two nodes as they are, and puts them into a
clique; and any two nodes of a clique have a positive answer. -/
structure Discovered (oracle : Oracle σ) (plans : List Plan) (s s' : Session σ) : Prop where
  graph : s'.graph = s.graph
  kept : ∀ q ∈ s.questions, q ∈ s'.questions
  new : ∀ q ∈ s'.questions, q.reply = .ok true → q ∈ s.questions ∨
    s.graph.Accepted oracle q.first q.second ∧ ∃ p ∈ plans, ∃ c ∈ p.cliques, q.first ∈ c
  backed : ∀ p ∈ plans, ∀ c ∈ p.cliques, ∀ a ∈ c, ∀ b ∈ c, a < b →
    ∃ q ∈ s'.questions, q.reply = .ok true ∧ q.first = a ∧ q.second = b

variable {oracle : Oracle σ}

theorem Discovered.cons {p : Plan} {plans : List Plan} {s₁ s₂ : Session σ}
    (h : Discovered oracle [p] s s₁) (h' : Discovered oracle plans s₁ s₂) :
    Discovered oracle (p :: plans) s s₂ where
  graph := h'.graph.trans h.graph
  kept := fun q hq => h'.kept q (h.kept q hq)
  new := by
    intro q hq hreply
    rcases h'.new q hq hreply with hq | ⟨haccepted, p', hp', hin⟩
    · refine (h.new q hq hreply).imp_right fun ⟨haccepted, p', hp', hin⟩ => ⟨haccepted, p', ?_, hin⟩
      exact List.mem_singleton.mp hp' ▸ List.mem_cons_self
    · exact Or.inr ⟨h.graph ▸ haccepted, p', List.mem_cons_of_mem _ hp', hin⟩
  backed := by
    intro p' hp' c hc a ha b hb hlt
    rcases List.mem_cons.mp hp' with rfl | hp'
    · obtain ⟨q, hq, hpositive⟩ := h.backed p' List.mem_cons_self c hc a ha b hb hlt
      exact ⟨q, h'.kept q hq, hpositive⟩
    · exact h'.backed p' hp' c hc a ha b hb hlt

theorem discover_ensures {set : BranchSet} {cases : Cases} (hq : Qualified s.graph set cases) :
    Ensures s (discover oracle set) fun r s' => Discovered oracle [r.1] s s' := by
  have hweighed : Ensures s (compatibility oracle set) fun found s' =>
      Weighed oracle s found.1 s' := by
    refine Ensures.foldlM (fun found s' pair hpair h => ?_) (weighed_start oracle s _)
    obtain ⟨a, b⟩ := pair
    obtain ⟨ha, hb⟩ := mem_of_mem_pairs hpair
    exact weigh_ensures h (rel_of_mem_pairs hq.ascending hpair) (hq.branch a ha).config
      (hq.branch b hb).config
  refine hweighed.bind fun found s' h => .pure ?_
  refine ⟨h.graph, h.kept, fun q hquestion hreply => ?_, fun p hp c hc a ha b hb hlt => ?_⟩
  · refine (h.new q hquestion hreply).imp_right fun ⟨haccepted, hconnected⟩ => ⟨haccepted, ?_⟩
    have hsecond := h.vertex q.second q.first
      ((Compatibility.connected_comm _ _ _).trans hconnected)
    obtain ⟨c, hc, hin, -⟩ := Compatibility.exists_mem_maximalCliques
      (h.vertex _ _ hconnected) hsecond hconnected
    exact ⟨_, List.mem_singleton_self _, c, hc, hin⟩
  · obtain rfl := List.mem_singleton.mp hp
    obtain ⟨-, -, hmax⟩ := Compatibility.mem_maximalCliques.mp hc
    exact h.backed a b hlt (hmax.prop.2 a (List.mem_toFinset.mpr ha) b (List.mem_toFinset.mpr hb)
      (Nat.ne_of_lt hlt))

/-- Qualifying splits are asked about one after another. -/
theorem discover_all_ensures (oracle : Oracle σ) {sets : List BranchSet}
    (hsets : ∀ set ∈ sets, ∃ cases, Qualified s.graph set cases) :
    Ensures s (sets.mapM (discover oracle)) fun found s' =>
      Discovered oracle (found.map (·.1)) s s' := by
  induction sets generalizing s with
  | nil => exact .pure ⟨rfl, fun _ hq => hq, fun _ hq _ => Or.inl hq, by simp⟩
  | cons set sets ih =>
    obtain ⟨cases, hq⟩ := hsets set List.mem_cons_self
    rw [List.mapM_cons]
    refine (discover_ensures hq).bind fun r s₁ hr => ?_
    refine Ensures.bind (ih fun other hother => ?_) fun more s₂ hmore => .pure (hr.cons hmore)
    rw [hr.graph]
    exact hsets other (List.mem_cons_of_mem _ hother)

end Merging

end StateGraph
