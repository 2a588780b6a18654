-- The names that merging gives out. Only a new node takes one, so the groups of a plan
-- tell them all, in the order in which they were given out.
import StateGraph.Proofs.Sessions

namespace StateGraph

/-! ## Names given out by a computation -/

section Names

variable {τ α β : Type} {graphOf : τ → Graph}

/-- If a computation ends well, `Q` holds of the names it has given out, from the next
name before to the next name after, and of its result. -/
def Names (graphOf : τ → Graph) (x : EStateM Error τ α) (Q : List NodeId → α → Prop) : Prop :=
  ∀ s a s', x.run s = .ok a s' →
    ∃ n, (graphOf s').next = (graphOf s).next + n ∧ Q (List.range' (graphOf s).next n) a

variable {Q : List NodeId → α → Prop} {R : List NodeId → β → Prop}

theorem Names.of_next_eq {x : EStateM Error τ α}
    (h : ∀ s a s', x.run s = .ok a s' → (graphOf s').next = (graphOf s).next ∧ Q [] a) :
    Names graphOf x Q := fun s a s' hrun => ⟨0, h s a s' hrun⟩

theorem Names.imp {Q' : List NodeId → α → Prop} {x : EStateM Error τ α} (h : Names graphOf x Q)
    (hQ : ∀ ns a, Q ns a → Q' ns a) : Names graphOf x Q' := by
  intro s a s' hrun
  obtain ⟨n, hn, hns⟩ := h s a s' hrun
  exact ⟨n, hn, hQ _ a hns⟩

theorem Names.pure {a : α} (h : Q [] a) : Names graphOf (Pure.pure a) Q := by
  refine .of_next_eq fun s b s' hrun => ?_
  cases hrun
  exact ⟨rfl, h⟩

theorem Names.bind {x : EStateM Error τ α} {f : α → EStateM Error τ β} (hx : Names graphOf x Q)
    (hf : ∀ ns a, Q ns a → Names graphOf (f a) fun ms b => R (ns ++ ms) b) :
    Names graphOf (x >>= f) R := by
  intro s b s' hrun
  rw [EStateM.run_bind] at hrun
  cases hxs : x.run s with
  | error e s₁ =>
    rw [hxs] at hrun
    cases hrun
  | ok a s₁ =>
    rw [hxs] at hrun
    obtain ⟨n, hn, hQ⟩ := hx s a s₁ hxs
    obtain ⟨m, hm, hR⟩ := hf _ a hQ s₁ b s' hrun
    refine ⟨n + m, by rw [hm, hn, Nat.add_assoc], ?_⟩
    rwa [hn, List.range'_append_1] at hR

/-- A step before which and at which no name is given out. -/
theorem Names.after {x : EStateM Error τ α} {f : α → EStateM Error τ β}
    (hx : Names graphOf x fun ns _ => ns = []) (hf : ∀ a, Names graphOf (f a) R) :
    Names graphOf (x >>= f) R :=
  hx.bind fun ns a hns => by simpa only [hns, List.nil_append] using hf a

theorem Names.forM {xs : List α} {f : α → EStateM Error τ PUnit}
    (h : ∀ x, Names graphOf (f x) fun ns _ => ns = []) :
    Names graphOf (xs.forM f) fun ns _ => ns = [] := by
  induction xs with
  | nil => exact .pure rfl
  | cons x xs ih => exact (h x).after fun _ => ih

theorem Names.mapM {names : β → List NodeId} {xs : List α} {f : α → EStateM Error τ β}
    (h : ∀ x, Names graphOf (f x) fun ns y => ns = names y) :
    Names graphOf (xs.mapM f) fun ns ys => ns = ys.flatMap names := by
  induction xs with
  | nil => exact .pure rfl
  | cons x xs ih =>
    rw [List.mapM_cons]
    refine (h x).bind fun ns y hns => ih.bind fun ms ys hms => .pure ?_
    rw [hns, hms, List.append_nil, List.flatMap_cons]

end Names

/-! ## Names given out by changes -/

namespace Update

variable {α : Type}

theorem names_addNode (c : Config) : Names id (addNode c) fun ns id => ns = [id] := by
  intro g a g' hrun
  cases hrun
  exact ⟨1, rfl, rfl⟩

theorem names_ofExcept (x : Except Error α) : Names id (ofExcept x) fun ns _ => ns = [] := by
  refine .of_next_eq fun g a g' hrun => ?_
  rw [ofExcept_run] at hrun
  cases x <;> cases hrun
  exact ⟨rfl, rfl⟩

theorem names_createEdge (source target : NodeId) (steps : Chain) :
    Names id (createEdge source target steps) fun ns _ => ns = [] := by
  refine .of_next_eq fun g a g' hrun => ?_
  rw [createEdge_run] at hrun
  split at hrun <;> cases hrun
  exact ⟨rfl, rfl⟩

theorem names_attachSplit (source : NodeId) (cases : Cases) (sharing : Bool) :
    Names id (attachSplit source cases sharing) fun ns _ => ns = [] := by
  refine .of_next_eq fun g a g' hrun => ?_
  rw [attachSplit_run] at hrun
  split at hrun <;> cases hrun
  exact ⟨rfl, rfl⟩

theorem names_detachSplit (source : NodeId) :
    Names id (detachSplit source) fun ns _ => ns = [] := by
  refine .of_next_eq fun g a g' hrun => ?_
  cases hrun
  exact ⟨rfl, rfl⟩

theorem names_detachNode (node : NodeId) :
    Names id (discard (detachNode node)) fun ns _ => ns = [] := by
  refine .of_next_eq fun g a g' hrun => ?_
  rw [discard_run, detachNode_run] at hrun
  cases hnode : g.nodes.get? node with
  | none =>
    rw [hnode] at hrun
    cases hrun
  | some c =>
    rw [hnode] at hrun
    cases hrun
    exact ⟨rfl, rfl⟩

end Update

namespace BranchSet

open Update

variable {set : BranchSet} {config : Config}

theorem names_addPath (start : NodeId) (bs : List Branch) :
    Names id (set.addPath start config bs) fun ns merged => ns = [merged] :=
  (names_addNode config).bind fun ns merged hns =>
    (names_createEdge _ _ _).after fun _ =>
      (names_attachSplit _ _ _).after fun _ => .pure (by simp [hns])

theorem names_mergeWhole (members : List NodeId) (bs : List Branch) :
    Names id (set.mergeWhole members bs config) fun ns r =>
      ns = [r.merged] ∧ r.anchor = r.splitSource :=
  (Names.forM names_detachNode).after fun _ =>
    (names_addPath set.source bs).bind fun ns merged hns => .pure ⟨by simp [hns], rfl⟩

theorem names_mergePart (part : Part) :
    Names id (set.mergePart config part) fun ns r => ns = [r.anchor, r.merged] :=
  (names_addNode _).bind fun ns anchor hns =>
    (names_addPath anchor part.branches).bind fun ms merged hms => .pure (by simp [hns, hms])

theorem names_mergeParts (parts : List Part) :
    Names id (set.mergeParts config parts) fun ns groups =>
      ns = groups.flatMap fun r => [r.anchor, r.merged] := by
  refine (Names.mapM names_mergePart).bind fun ns groups hns => ?_
  refine (Names.forM names_detachNode).after fun _ => ?_
  refine (names_detachSplit _).after fun _ => (names_attachSplit _ _ _).after fun _ => .pure ?_
  rw [hns, List.append_nil]

end BranchSet

/-! ## Names given out by plans -/

/-- The names that a group has given out: its end, and its anchor unless the path
starts at the source of the split. -/
def Group.fresh (r : Group) : List NodeId :=
  if r.anchor = r.splitSource then [r.merged] else [r.anchor, r.merged]

theorem Group.mem_fresh {r : Group} {id : NodeId} :
    id ∈ r.fresh ↔ id = r.merged ∨ id = r.anchor ∧ r.anchor ≠ r.splitSource := by
  unfold fresh
  split
  · rename_i h
    simp [h]
  · rename_i h
    simp [h, or_comm]

namespace Merging

variable {σ α : Type}

theorem names_update {change : Update α} {Q : List NodeId → α → Prop} (h : Names id change Q) :
    Names (Session.graph (σ := σ)) (update change) Q := by
  intro s a s' hrun
  rw [update_run] at hrun
  cases hchange : change.run s.graph with
  | error e g =>
    rw [hchange] at hrun
    cases hrun
  | ok a g =>
    rw [hchange] at hrun
    cases hrun
    exact h s.graph _ g hchange

theorem names_consult (question : EStateM Error σ α) :
    Names Session.graph (consult question) fun ns _ => ns = [] := by
  refine .of_next_eq fun s a s' hrun => ?_
  rw [consult_run] at hrun
  cases hquestion : question.run s.memory with
  | error e m =>
    rw [hquestion] at hrun
    cases hrun
  | ok a m =>
    rw [hquestion] at hrun
    cases hrun
    exact ⟨rfl, rfl⟩

theorem names_prepare (oracle : Oracle σ) (set : BranchSet) (members : List NodeId) :
    Names Session.graph (prepare oracle set members) fun ns _ => ns = [] :=
  (names_update (Update.names_ofExcept _)).after fun _ => (names_consult _).after fun _ => .pure rfl

/-- A plan gives out the ends of its paths. Where the path of all branches does not start
at the source itself, it gives out anchors as well. -/
theorem names_carryOut (oracle : Oracle σ) (p : Plan) :
    Names Session.graph (carryOut oracle p) fun ns groups =>
      (∃ r, groups = [r] ∧ ns = [r.merged] ∧ r.anchor = r.splitSource) ∨
        ns = groups.flatMap fun r => [r.anchor, r.merged] := by
  unfold carryOut
  have hget : Names Session.graph (get : Merging σ (Session σ)) fun ns _ => ns = [] := by
    refine .of_next_eq fun s a s' hrun => ?_
    cases hrun
    exact ⟨rfl, rfl⟩
  refine hget.after fun s => (names_update (Update.names_ofExcept _)).after fun config => ?_
  split
  · refine (names_update (Update.names_ofExcept _)).after fun bs => ?_
    refine (names_update (BranchSet.names_mergeWhole _ bs)).bind fun ns r hr => .pure ?_
    exact Or.inl ⟨r, rfl, by rw [hr.1, List.append_nil], hr.2⟩
  · have hprepare : Names Session.graph (p.cliques.mapM (prepare oracle p.set))
        fun ns parts => ns = parts.flatMap fun _ => [] := .mapM (names_prepare oracle p.set)
    have hnone : ∀ parts : List Part, (parts.flatMap fun _ => ([] : List NodeId)) = [] := by simp
    refine (hprepare.imp fun ns parts hns => hns.trans (hnone parts)).after fun parts => ?_
    exact (names_update (BranchSet.names_mergeParts parts)).imp fun _ _ => Or.inr

end Merging

end StateGraph
