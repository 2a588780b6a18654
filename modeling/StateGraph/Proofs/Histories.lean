-- Calls on a graph, and every graph that calls lead to. Whatever the calls are
-- and whichever of them fail, the graph keeps its shape.
import StateGraph.Proofs.Loading
import StateGraph.Proofs.Rounds

namespace StateGraph

theorem Update.mergeWith_run {σ : Type} (oracle : Oracle σ) (memory : σ) (limit : Nat) (g : Graph) :
    (Update.mergeWith oracle memory limit).run g =
      match EStateM.run (Merging.run oracle limit) { graph := g, memory := memory } with
      | .ok report s => .ok report s.graph
      | .error e s => .error e s.graph := rfl

/-! ## Calls -/

/-- A call that may change a graph, with its arguments. -/
inductive Call : Type 1 where
  | addNode (c : Config)
  | replaceConfig (id : NodeId) (c : Config)
  | removeNode (id : NodeId)
  | createEdge (source target : NodeId) (steps : Chain)
  | removeEdge (source target : NodeId)
  | createCover (source target : NodeId) (effect : Effect)
  | removeCover (source target : NodeId)
  | createSplit (source : NodeId) (cases : Cases)
  | removeSplit (source : NodeId)
  | propagate
  | merge {σ : Type} (oracle : Oracle σ) (memory : σ) (limit : Nat)

namespace Call

/-- What the call does, without what it gives. -/
def update : Call → Update Unit
  | addNode c => discard (Update.addNode c)
  | replaceConfig id c => Update.replaceConfig id c
  | removeNode id => discard (Update.removeNode id)
  | createEdge source target steps => Update.createEdge source target steps
  | removeEdge source target => discard (Update.removeEdge source target)
  | createCover source target effect => Update.createCover source target effect
  | removeCover source target => discard (Update.removeCover source target)
  | createSplit source cases => discard (Update.createSplit source cases)
  | removeSplit source => discard (Update.removeSplit source)
  | propagate => discard Update.propagate
  | merge oracle memory limit => discard (Update.mergeWith oracle memory limit)

/-- The call merges branches. -/
def isMerge : Call → Bool
  | merge .. => true
  | _ => false

/-- The graph after a call, whether it fails or not. -/
def after (c : Call) (g : Graph) : Graph := stateOf (c.update.run g)

end Call

/-- The graph after some calls. -/
def Graph.afterAll (g : Graph) (calls : List Call) : Graph := calls.foldl (fun g c => c.after g) g

/-- Where a history of calls may start. -/
inductive Start : Graph → Prop
  | empty : Start .empty
  | loaded {s : Snapshot} {g : Graph} : Graph.ofSnapshot s = .ok g → Start g
  | read {t : String} {g : Graph} : Graph.ofText t = .ok g → Start g

/-- Some calls lead to the graph. -/
def Reachable (g : Graph) : Prop := ∃ start calls, Start start ∧ g = start.afterAll calls

open StateGraph.Graph (Sound Grows Unshared Reconfigured)

theorem Start.sound {g : Graph} (h : Start g) : Sound g ∧ g.next ≤ maxNodeId := by
  cases h with
  | empty => exact ⟨Graph.sound_empty (Nat.le_refl 1), by decide⟩
  | loaded h => exact Graph.sound_of_ofSnapshot h
  | read h =>
    obtain ⟨s, hs⟩ := Graph.exists_snapshot_of_ofText h
    exact Graph.sound_of_ofSnapshot hs

/-! ## One call -/

theorem Safe.discard {α : Type} {x : Update α} {g : Graph} (h : Safe g (x.run g)) :
    Safe g ((Functor.discard x).run g) := by
  rw [Update.discard_run]
  cases hrun : x.run g with
  | ok a g' =>
    rw [hrun] at h
    exact h
  | error e g' =>
    rw [hrun] at h
    exact h

theorem Safe.after {α : Type} {g : Graph} {r : EStateM.Result Error Graph α} (h : Safe g r)
    (hg : Sound g) : Sound (stateOf r) ∧ Grows g (stateOf r) := by
  cases r with
  | ok a g' => exact h
  | error e g' =>
    obtain rfl : g' = g := h
    exact ⟨hg, .refl _⟩

namespace Call

variable {g : Graph} {c : Call}

/-- A call that merges nothing keeps a graph sound, or fails and leaves it as
it was. -/
theorem safe (h : Sound g) (hc : c.isMerge = false) : Safe g (c.update.run g) := by
  cases c with
  | addNode c => exact (Update.addNode_safe h c).discard
  | replaceConfig id c => exact Update.replaceConfig_safe h id c
  | removeNode id => exact (Update.removeNode_safe h id).discard
  | createEdge s t steps => exact Update.createEdge_safe h s t steps
  | removeEdge s t => exact (Update.removeEdge_safe h s t).discard
  | createCover s t e => exact Update.createCover_safe h s t e
  | removeCover s t => exact (Update.removeCover_safe h s t).discard
  | createSplit s cases => exact (Update.createSplit_safe h s cases).discard
  | removeSplit s => exact (Update.removeSplit_safe h s).discard
  | propagate => exact (Update.propagate_safe h).discard
  | merge oracle memory limit => cases hc

theorem after_merge {σ : Type} (oracle : Oracle σ) (memory : σ) (limit : Nat) :
    (merge oracle memory limit).after g =
      (stateOf (EStateM.run (Merging.run oracle limit) { graph := g, memory := memory })).graph := by
  unfold after update
  rw [Update.discard_run, Update.mergeWith_run]
  cases EStateM.run (Merging.run oracle limit) { graph := g, memory := memory } <;> rfl

theorem sound_after (h : Sound g) (c : Call) : Sound (c.after g) ∧ Grows g (c.after g) := by
  cases hc : c.isMerge with
  | false => exact (c.safe h hc).after h
  | true =>
    cases c with
    | merge oracle memory limit =>
      have hrounds :=
        Merging.rounds_keeps (s := { graph := g, memory := memory }) oracle limit {} h
      rw [after_merge]
      exact ⟨hrounds.sound, hrounds.grows⟩
    | _ => cases hc

theorem stateOf_discard {α : Type} (x : Update α) (g : Graph) :
    stateOf ((discard x).run g) = stateOf (x.run g) := by
  rw [Update.discard_run]
  cases x.run g <;> rfl

theorem unshared_of_splits_eq {g' : Graph} (hu : Unshared g) (h : g'.splits = g.splits) :
    Unshared g' := hu.mono fun _ _ hab => h ▸ hab

theorem unshared_settled {α : Type} (h : Sound g) (hu : Unshared g) (a : α) :
    Unshared (stateOf (Update.settled a g)) := by
  obtain ⟨g', hrun, hg'⟩ := Update.settled_run h a
  rw [hrun]
  exact unshared_of_splits_eq hu hg'.splits_eq

theorem unshared_removeNode (h : Sound g) (hu : Unshared g) (id : NodeId) :
    Unshared (stateOf ((Update.removeNode id).run g)) := by
  have hless : Unshared (g.without id) :=
    hu.mono fun a b hab => (Graph.branchesTo_without.mp hab).2.2
  rw [Update.removeNode_run]
  split
  · split
    · exact unshared_settled (h.without id) hless _
    · exact hless
  · exact hu

theorem unshared_createSplit (h : Sound g) (hu : Unshared g) (source : NodeId) (cases : Cases) :
    Unshared (stateOf ((Update.createSplit source cases).run g)) := by
  rw [Update.createSplit_run]
  split
  · exact hu
  · rename_i hfault
    have hsplit := Graph.splitFault_eq_none.mp hfault
    obtain ⟨n, g', hrun, hg'⟩ := Update.propagate_run (h.insert_split hsplit)
    have hu' : Unshared g' := unshared_of_splits_eq (hu.insert_split hsplit) hg'.splits_eq
    rw [hrun]
    simp only [Update.demand_run]
    split <;> exact hu'

theorem unshared_removeSplit (h : Sound g) (hu : Unshared g) (source : NodeId) :
    Unshared (stateOf ((Update.removeSplit source).run g)) := by
  rw [Update.removeSplit_run]
  split
  · exact unshared_settled (h.erase_split source)
      (hu.mono fun a b hab => (Graph.branchesTo_erase.mp hab).2) _
  · exact hu

/-- A call that merges nothing lets no two splits branch to one node. -/
theorem unshared_after (h : Sound g) (hu : Unshared g) (hc : c.isMerge = false) :
    Unshared (c.after g) := by
  unfold after update
  cases c with
  | addNode c =>
    rw [stateOf_discard, Update.addNode_run]
    exact hu
  | replaceConfig id c =>
    simp only [Update.replaceConfig_run]
    split <;> exact hu
  | removeNode id =>
    rw [stateOf_discard]
    exact unshared_removeNode h hu id
  | createEdge s t steps =>
    simp only [Update.createEdge_run]
    split <;> exact hu
  | removeEdge s t =>
    rw [stateOf_discard, Update.removeEdge_run]
    split <;> exact hu
  | createCover s t e =>
    simp only [Update.createCover_run]
    split <;> exact hu
  | removeCover s t =>
    rw [stateOf_discard, Update.removeCover_run]
    split <;> exact hu
  | createSplit s cases =>
    rw [stateOf_discard]
    exact unshared_createSplit h hu s cases
  | removeSplit s =>
    rw [stateOf_discard]
    exact unshared_removeSplit h hu s
  | propagate =>
    obtain ⟨n, g', hrun, hg'⟩ := Update.propagate_run h
    rw [stateOf_discard, hrun]
    exact unshared_of_splits_eq hu hg'.splits_eq
  | merge oracle memory limit => cases hc

end Call

/-! ## Histories -/

namespace Graph

theorem afterAll_append (g : Graph) (calls more : List Call) :
    g.afterAll (calls ++ more) = (g.afterAll calls).afterAll more := List.foldl_append

theorem sound_afterAll {g : Graph} (h : Sound g) (calls : List Call) :
    Sound (g.afterAll calls) ∧ Grows g (g.afterAll calls) := by
  induction calls generalizing g with
  | nil => exact ⟨h, .refl g⟩
  | cons c calls ih =>
    obtain ⟨hsound, hgrows⟩ := Call.sound_after h c
    obtain ⟨hsound', hgrows'⟩ := ih hsound
    exact ⟨hsound', hgrows.trans hgrows'⟩

theorem unshared_afterAll {g : Graph} (h : Sound g) (hu : Unshared g) {calls : List Call}
    (hcalls : ∀ c ∈ calls, c.isMerge = false) : Unshared (g.afterAll calls) := by
  induction calls generalizing g with
  | nil => exact hu
  | cons c calls ih =>
    have hc := hcalls c List.mem_cons_self
    exact ih (Call.sound_after h c).1 (Call.unshared_after h hu hc)
      fun d hd => hcalls d (List.mem_cons_of_mem _ hd)

/-- The records of a snapshot say what the tables hold under their names. In the tables a
node, a link or a split has no name but its key, so no graph can have a record under a
name that is not its own, and this holds of every graph, however it came about. -/
structure Recorded (g : Graph) : Prop where
  node : ∀ r, r ∈ g.toSnapshot.nodes ↔ g.nodes.get? r.id = some r.config
  edge : ∀ r, r ∈ g.toSnapshot.edges ↔ g.edges.get? ⟨r.source, r.target⟩ = some r.steps
  cover : ∀ r, r ∈ g.toSnapshot.covers ↔ g.covers.get? ⟨r.source, r.target⟩ = some r.effect
  split : ∀ r, r ∈ g.toSnapshot.splits ↔
    ∃ cases, g.splits.get? r.source = some cases ∧ r = .ofCases r.source cases

theorem recorded (g : Graph) : Recorded g where
  node := by
    intro r
    simp only [toSnapshot, List.mem_map, Prod.exists, Table.get?_eq_some]
    constructor
    · rintro ⟨id, c, hmem, rfl⟩
      exact hmem
    · exact fun hmem => ⟨r.id, r.config, hmem, rfl⟩
  edge := by
    intro r
    simp only [toSnapshot, List.mem_map, Prod.exists, Table.get?_eq_some]
    constructor
    · rintro ⟨l, steps, hmem, rfl⟩
      exact hmem
    · exact fun hmem => ⟨⟨r.source, r.target⟩, r.steps, hmem, rfl⟩
  cover := by
    intro r
    simp only [toSnapshot, List.mem_map, Prod.exists, Table.get?_eq_some]
    constructor
    · rintro ⟨l, e, hmem, rfl⟩
      exact hmem
    · exact fun hmem => ⟨⟨r.source, r.target⟩, r.effect, hmem, rfl⟩
  split := by
    intro r
    simp only [toSnapshot, List.mem_map, Prod.exists, Table.get?_eq_some]
    constructor
    · rintro ⟨id, cases, hmem, rfl⟩
      exact ⟨cases, hmem, rfl⟩
    · rintro ⟨cases, hmem, he⟩
      exact ⟨r.source, cases, hmem, he.symm⟩

/-- A name that is new after some calls was no node at any time before. -/
theorem afterAll_new {g : Graph} (h : Sound g) (calls more : List Call) {id : NodeId}
    (hid : id ∈ (g.afterAll (calls ++ more)).nodes) (hnew : id ∉ (g.afterAll calls).nodes)
    (n : Nat) : id ∉ (g.afterAll (calls.take n)).nodes := by
  -- what was a node early is below the next name, what is new is not
  intro hold
  rw [afterAll_append] at hid
  obtain ⟨hsound, -⟩ := sound_afterAll h calls
  have hle : (g.afterAll calls).next ≤ id :=
    ((sound_afterAll hsound more).2.fresh id hid).resolve_left hnew
  have hearly := (sound_afterAll h (calls.take n)).1
  have hgrows : Grows (g.afterAll (calls.take n)) (g.afterAll calls) := by
    have := (sound_afterAll hearly (calls.drop n)).2
    rwa [← afterAll_append, List.take_append_drop] at this
  exact hearly.not_mem_of_le (Nat.le_trans hgrows.next_le hle) hold

theorem unshared_empty : Unshared .empty := by
  rintro s s' t ⟨cases, hcases, -⟩
  simp [empty] at hcases

/-- Whatever calls a graph has been through, from nothing or from a snapshot,
and whichever of them failed: it is sound, and names are given out once. Without
merging, from nothing, no two splits branch to one node. That its records bear the
names they stand under is no matter of the calls: see `Recorded`. -/
theorem history_keeps_shape {start : Graph} (hstart : Start start) (calls : List Call) :
    Sound (start.afterAll calls) ∧ Recorded (start.afterAll calls) ∧
      (∀ more, Grows (start.afterAll calls) (start.afterAll (calls ++ more)) ∧
        ∀ id ∈ (start.afterAll (calls ++ more)).nodes, id ∉ (start.afterAll calls).nodes →
          ∀ n, id ∉ (start.afterAll (calls.take n)).nodes) ∧
      ((start.afterAll calls).next < start.next + 2 ^ 63 →
        (start.afterAll calls).next < 2 ^ 64) ∧
      (start = .empty → (∀ c ∈ calls, c.isMerge = false) → Unshared (start.afterAll calls)) := by
  obtain ⟨hsound, hnext⟩ := hstart.sound
  have hafter := (sound_afterAll hsound calls).1
  refine ⟨hafter, recorded _, fun more => ⟨?_, ?_⟩, fun hlt => ?_, ?_⟩
  · rw [afterAll_append]
    exact (sound_afterAll hafter more).2
  · exact fun id hid hnew n => afterAll_new hsound calls more hid hnew n
  · have hmax : start.next + 2 ^ 63 ≤ 2 ^ 64 := by
      unfold maxNodeId at hnext
      have hnat : ∀ n : Nat, n ≤ 0x7fffffffffffffff → n + 2 ^ 63 ≤ 2 ^ 64 := by omega
      exact hnat _ hnext
    exact Nat.lt_of_lt_of_le hlt hmax
  · rintro rfl hcalls
    exact unshared_afterAll hsound unshared_empty hcalls

end Graph

/-- Calls that make a split with three branches, each of which goes on by one
edge. -/
def fork : List Call :=
  (["X", "X", "X", "Y", "X", "X", "X"].map fun x => .addNode { term := .var x }) ++
    [.createEdge 2 5 [.guard .top], .createEdge 3 6 [.guard .top], .createEdge 4 7 [.guard .top],
      .createSplit 1 { guards := .ofList [(2, .top), (3, .top), (4, .top)] }]

theorem history_keeps_shape_fork :
    let calls : List Call := fork ++ [.merge Oracle.always () 64, .removeNode 2, .removeSplit 8]
    (Graph.empty.afterAll calls).next = 9 ∧ 8 ∈ (Graph.empty.afterAll calls).nodes ∧
      (Graph.empty.afterAll calls).Sound :=
  ⟨by decide +kernel, by decide +kernel, (Graph.history_keeps_shape .empty _).1⟩

end StateGraph
