-- What each change does, as an equation over the graph it starts from. After
-- these no proof opens a change again.
import StateGraph.Graph.Propagate
import StateGraph.Proofs.Soundness

namespace StateGraph

/-- The state in which a computation ends, well or not. -/
def stateOf {ε σ α : Type} : EStateM.Result ε σ α → σ
  | .ok _ s => s
  | .error _ s => s

/-- A sound graph stays sound, and a failure leaves it as it was. -/
def Safe {α : Type} (g : Graph) : EStateM.Result Error Graph α → Prop
  | .ok _ g' => g'.Sound ∧ g.Grows g'
  | .error _ g' => g' = g

namespace Update

variable {α : Type}

/-! ## Parts of a change -/

theorem reject_run (o : Option Error) (g : Graph) :
    (reject o).run g = match o with
      | some e => .error e g
      | none => .ok () g := by
  cases o <;> rfl

theorem demand_run (item : Item) (o : Option α) (g : Graph) :
    (demand item o).run g = match o with
      | some a => .ok a g
      | none => .error (.notFound item) g := by
  cases o <;> rfl

theorem ofExcept_run (x : Except Error α) (g : Graph) :
    (ofExcept x).run g = match x with
      | .ok a => .ok a g
      | .error e => .error e g := by
  cases x <;> rfl

theorem discard_run (x : Update α) (g : Graph) :
    (discard x).run g = match x.run g with
      | .ok _ g' => .ok () g'
      | .error e g' => .error e g' := by
  change (EStateM.map _ x).run g = _
  simp only [EStateM.run, EStateM.map]
  cases x g <;> rfl

theorem config_eq {g : Graph} {id : NodeId} (h : id ∈ g.nodes) :
    ∃ c, g.nodes.get? id = some c ∧ g.config id = .ok c := by
  obtain ⟨c, hc⟩ := Table.mem_iff.mp h
  exact ⟨c, hc, by simp [Graph.config, hc]⟩

/-! ## Changes -/

theorem addNode_run (c : Config) (g : Graph) :
    (addNode c).run g = .ok g.next (g.withNode c) := rfl

theorem replaceConfig_run (id : NodeId) (c : Config) (g : Graph) :
    (replaceConfig id c).run g = match g.nodes.get? id with
      | some _ => .ok () { g with nodes := g.nodes.insert id c }
      | none => .error (.notFound (.node id)) g := by
  simp only [replaceConfig, EStateM.run_bind, EStateM.run_get, demand_run]
  cases g.nodes.get? id <;> rfl

theorem detachNode_run (id : NodeId) (g : Graph) :
    (detachNode id).run g = match g.nodes.get? id with
      | some c => .ok (c, g.inSomeSplit id) (g.without id)
      | none => .error (.notFound (.node id)) g := by
  simp only [detachNode, EStateM.run_bind, EStateM.run_get, demand_run]
  cases g.nodes.get? id <;> rfl

theorem createEdge_run (s t : NodeId) (steps : Chain) (g : Graph) :
    (createEdge s t steps).run g = match g.edgeFault ⟨s, t⟩ steps with
      | some e => .error e g
      | none => .ok () { g with edges := g.edges.insert ⟨s, t⟩ steps } := by
  simp only [createEdge, EStateM.run_bind, EStateM.run_get, reject_run]
  cases g.edgeFault ⟨s, t⟩ steps <;> rfl

theorem removeEdge_run (s t : NodeId) (g : Graph) :
    (removeEdge s t).run g = match g.edges.get? ⟨s, t⟩ with
      | some steps => .ok steps { g with edges := g.edges.erase ⟨s, t⟩ }
      | none => .error (.notFound (.edge s t)) g := by
  simp only [removeEdge, EStateM.run_bind, EStateM.run_get, demand_run]
  cases g.edges.get? ⟨s, t⟩ <;> rfl

theorem createCover_run (s t : NodeId) (effect : Effect) (g : Graph) :
    (createCover s t effect).run g = match g.coverFault ⟨s, t⟩ with
      | some e => .error e g
      | none => .ok () { g with covers := g.covers.insert ⟨s, t⟩ effect } := by
  simp only [createCover, EStateM.run_bind, EStateM.run_get, reject_run]
  cases g.coverFault ⟨s, t⟩ <;> rfl

theorem removeCover_run (s t : NodeId) (g : Graph) :
    (removeCover s t).run g = match g.covers.get? ⟨s, t⟩ with
      | some effect => .ok effect { g with covers := g.covers.erase ⟨s, t⟩ }
      | none => .error (.notFound (.cover s t)) g := by
  simp only [removeCover, EStateM.run_bind, EStateM.run_get, demand_run]
  cases g.covers.get? ⟨s, t⟩ <;> rfl

theorem attachSplit_run (source : NodeId) (cases : Cases) (sharing : Bool) (g : Graph) :
    (attachSplit source cases sharing).run g = match g.splitFault source cases sharing with
      | some e => .error e g
      | none => .ok () { g with splits := g.splits.insert source cases } := by
  simp only [attachSplit, EStateM.run_bind, EStateM.run_get, reject_run]
  cases g.splitFault source cases sharing <;> rfl

theorem detachSplit_run (source : NodeId) (g : Graph) : (detachSplit source).run g =
    .ok (g.splits.get? source) { g with splits := g.splits.erase source } := rfl

/-! ## Changes that move path conditions -/

/-- What is left of a change once path conditions have been brought up to date:
the result, unless that failed. -/
def settled (a : α) (g : Graph) : EStateM.Result Error Graph α :=
  match propagate.run g with
  | .ok _ g' => .ok a g'
  | .error e g' => .error e g'

theorem removeNode_run (id : NodeId) (g : Graph) :
    (removeNode id).run g = match g.nodes.get? id with
      | some c => if g.inSomeSplit id then settled c (g.without id) else .ok c (g.without id)
      | none => .error (.notFound (.node id)) g := by
  simp only [removeNode, EStateM.run_bind, detachNode_run]
  cases g.nodes.get? id with
  | none => rfl
  | some c =>
    simp only
    split
    · simp only [EStateM.run_bind, settled]
      cases propagate.run (g.without id) <;> rfl
    · rfl

theorem createSplit_run (source : NodeId) (cases : Cases) (g : Graph) :
    (createSplit source cases).run g = match g.splitFault source cases false with
      | some e => .error e g
      | none =>
        match propagate.run { g with splits := g.splits.insert source cases } with
        | .ok _ g' => (demand (.split source) (g'.splits.get? source)).run g'
        | .error e g' => .error e g' := by
  simp only [createSplit, EStateM.run_bind, attachSplit_run]
  cases g.splitFault source cases false with
  | some e => rfl
  | none =>
    simp only
    cases propagate.run { g with splits := g.splits.insert source cases } <;> rfl

theorem removeSplit_run (source : NodeId) (g : Graph) :
    (removeSplit source).run g = match g.splits.get? source with
      | some cases => settled cases { g with splits := g.splits.erase source }
      | none => .error (.notFound (.split source)) g := by
  simp only [removeSplit, EStateM.run_bind, EStateM.run_get, demand_run]
  cases g.splits.get? source with
  | none => rfl
  | some cases =>
    simp only [EStateM.run_set, settled]
    cases propagate.run { g with splits := g.splits.erase source } <;> rfl

end Update

end StateGraph
