-- Records may come in any order. An edge, a cover or a split is let in when it is new and
-- the graph with it keeps its shape, so what else has come before it does not matter. And
-- path conditions are the one solution of the splits, so no trace is left of the
-- conditions that held in between.
import StateGraph.Proofs.InStep

namespace StateGraph

open Relation (ReflTransGen TransGen)
open StateGraph.Graph (Sound Reconfigured Settles)

/-! ## Records to be added -/

/-- An edge, a cover or a split that is to be added. -/
inductive Addition where
  | edge (source target : NodeId) (steps : Chain)
  | cover (source target : NodeId) (effect : Effect)
  | split (source : NodeId) (cases : Cases)

/-- The record is in the graph. -/
def Graph.Has (g : Graph) : Item → Prop
  | .node id => id ∈ g.nodes
  | .edge s t => (⟨s, t⟩ : Link) ∈ g.edges
  | .split s => s ∈ g.splits
  | .cover s t => (⟨s, t⟩ : Link) ∈ g.covers

namespace Addition

/-- The call that adds the record. -/
def call : Addition → Call
  | edge s t steps => .createEdge s t steps
  | cover s t e => .createCover s t e
  | split s cases => .createSplit s cases

/-- The name under which the record stands. -/
def item : Addition → Item
  | edge s t _ => .edge s t
  | cover s t _ => .cover s t
  | split s _ => .split s

/-- The first fault of the record. -/
def fault (g : Graph) : Addition → Option Error
  | edge s t steps => g.edgeFault ⟨s, t⟩ steps
  | cover s t _ => g.coverFault ⟨s, t⟩
  | split s cases => g.splitFault s cases false

/-- The graph with the record, and path conditions as they are. -/
def addTo (g : Graph) : Addition → Graph
  | edge s t steps => { g with edges := g.edges.insert ⟨s, t⟩ steps }
  | cover s t e => { g with covers := g.covers.insert ⟨s, t⟩ e }
  | split s cases => { g with splits := g.splits.insert s cases }

/-- The graph without the record, and path conditions as they are. -/
def takeFrom (g : Graph) : Addition → Graph
  | edge s t _ => { g with edges := g.edges.erase ⟨s, t⟩ }
  | cover s t _ => { g with covers := g.covers.erase ⟨s, t⟩ }
  | split s _ => { g with splits := g.splits.erase s }

/-- The record is a split of `s` with a branch to `t`. -/
def Branches (s t : NodeId) : Addition → Prop
  | split source cases => s = source ∧ t ∈ cases.guards
  | _ => False

/-- The call brings path conditions up to date. -/
def settles : Addition → Bool
  | split .. => true
  | _ => false

variable {g g' : Graph} {a b : Addition}

theorem has_addTo {i : Item} : (a.addTo g).Has i ↔ i = a.item ∨ g.Has i := by
  cases a <;> cases i <;> simp [addTo, item, Graph.Has, Table.mem_insert]

theorem addTo_comm (hne : a.item ≠ b.item) : a.addTo (b.addTo g) = b.addTo (a.addTo g) := by
  cases a <;> cases b <;> simp [addTo, item] at hne ⊢
  all_goals exact Table.insert_comm (by simpa using hne)

theorem takeFrom_addTo (hnew : ¬ g.Has a.item) : a.takeFrom (a.addTo g) = g := by
  cases a with
  | edge s t steps => exact congrArg (fun x => { g with edges := x }) (Table.erase_insert hnew)
  | cover s t e => exact congrArg (fun x => { g with covers := x }) (Table.erase_insert hnew)
  | split s cases => exact congrArg (fun x => { g with splits := x }) (Table.erase_insert hnew)

theorem branchesTo_addTo (hnew : ¬ g.Has a.item) {s t : NodeId} :
    BranchesTo (a.addTo g).splits s t ↔ a.Branches s t ∨ BranchesTo g.splits s t := by
  cases a with
  | edge => simp [addTo, Branches]
  | cover => simp [addTo, Branches]
  | split source cases =>
    refine branchesTo_insert.trans (or_congr_right (and_iff_right_of_imp ?_))
    rintro ⟨old, hold, -⟩ rfl
    exact hnew (Table.mem_of_get? hold)

end Addition

theorem Graph.Sound.takeFrom {g : Graph} (h : Sound g) (a : Addition) : Sound (a.takeFrom g) := by
  cases a with
  | edge s t steps => exact h.erase_edge _
  | cover s t e => exact h.erase_cover _
  | split s cases => exact h.erase_split _

namespace Addition

variable {g g' : Graph} {a b : Addition}

/-! ## Records that are let in -/

/-- The record is new, the graph with it is sound, and no other split branches to a
target of it. -/
structure Fits (a : Addition) (g : Graph) : Prop where
  new : ¬ g.Has a.item
  sound : Sound (a.addTo g)
  free : ∀ s t, a.Branches s t → ∀ r, ¬ BranchesTo g.splits r t

theorem fault_eq_none (h : Sound g) : a.fault g = none ↔ a.Fits g := by
  cases a with
  | edge s t steps =>
    refine ⟨fun hfault => ⟨?_, h.insert_edge hfault, by simp [Branches]⟩, fun hfits => ?_⟩
    · exact (Graph.edgeFault_eq_none.mp hfault).2.2.2.2
    · have hmem : (⟨s, t⟩ : Link) ∈ (addTo g (edge s t steps)).edges :=
        Table.mem_insert.mpr (Or.inl rfl)
      obtain ⟨hs, ht⟩ := hfits.sound.edge_ends _ hmem
      refine Graph.edgeFault_eq_none.mpr ⟨hs, ht, ?_, ?_, hfits.new⟩
      · exact hfits.sound.edge_steps ⟨s, t⟩ steps (Table.get?_insert_self _ _ _)
      · exact fun hsplit => hfits.sound.no_edge s hsplit _ hmem rfl
  | cover s t e =>
    refine ⟨fun hfault => ⟨?_, h.insert_cover hfault, by simp [Branches]⟩, fun hfits => ?_⟩
    · exact (Graph.coverFault_eq_none.mp hfault).2.2.2
    · have hmem : (⟨s, t⟩ : Link) ∈ (addTo g (cover s t e)).covers :=
        Table.mem_insert.mpr (Or.inl rfl)
      obtain ⟨hs, ht⟩ := hfits.sound.cover_ends _ hmem
      exact Graph.coverFault_eq_none.mpr
        ⟨hs, ht, fun hsplit => hfits.sound.no_cover s hsplit _ hmem rfl, hfits.new⟩
  | split s cases =>
    refine ⟨fun hfault => ?_, fun hfits => Graph.splitFault_eq_none.mpr ?_⟩
    · have hs := Graph.splitFault_eq_none.mp hfault
      exact ⟨hs.no_split, h.insert_split hs, fun _ t ⟨_, ht⟩ => hs.free rfl t ht⟩
    · have hmem : s ∈ (addTo g (split s cases)).splits := Table.mem_insert.mpr (Or.inl rfl)
      have hbranch : ∀ {t}, t ∈ cases.guards →
          BranchesTo (addTo g (split s cases)).splits s t := fun ht =>
        (branchesTo_addTo hfits.new).mpr (Or.inl ⟨rfl, ht⟩)
      have hold : ∀ x y, BranchesTo g.splits x y →
          BranchesTo (addTo g (split s cases)).splits x y := fun x y hxy =>
        (branchesTo_addTo hfits.new).mpr (Or.inr hxy)
      have htargets : ∀ t ∈ cases.guards, t ∈ g.nodes := fun t ht =>
        hfits.sound.split_target s t (hbranch ht)
      refine ⟨hfits.sound.split_source s hmem, htargets, ?_, hfits.new, hfits.sound.no_edge s hmem,
        hfits.sound.no_cover s hmem, fun hself => hfits.sound.acyclic s (.single (hbranch hself)),
        fun _ t ht => hfits.free s t ⟨rfl, ht⟩, ?_⟩
      · obtain ⟨t, ht⟩ := hfits.sound.split_branch s hmem
        rcases (branchesTo_addTo hfits.new).mp ht with ⟨-, ht⟩ | ⟨old, hget, -⟩
        · exact ⟨t, ht⟩
        · exact absurd (Table.mem_of_get? hget) hfits.new
      -- a target that led back to the source would close a cycle through the new split
      · refine (h.splitsLeadTo_eq_false htargets).mpr fun t ht hpath => ?_
        exact hfits.sound.acyclic s (.head' (hbranch ht) (ReflTransGen.mono hold _ _ hpath))

/-- Of two records that are let in one after the other, either may come first. -/
theorem Fits.swap (hb : b.Fits g) (ha : a.Fits (b.addTo g)) :
    a.Fits g ∧ b.Fits (a.addTo g) ∧ a.addTo (b.addTo g) = b.addTo (a.addTo g) := by
  have hne : a.item ≠ b.item := fun he => ha.new (has_addTo.mpr (Or.inl he))
  have hcomm := addTo_comm (g := g) hne
  have hnew : ¬ g.Has a.item := fun hhas => ha.new (has_addTo.mpr (Or.inr hhas))
  have hnew' : ¬ (a.addTo g).Has b.item := fun hhas =>
    (has_addTo.mp hhas).elim (fun he => hne he.symm) hb.new
  have hboth : Sound (b.addTo (a.addTo g)) := hcomm ▸ ha.sound
  refine ⟨⟨hnew, ?_, fun s t hst r hr => ?_⟩, ⟨hnew', hboth, fun s t hst r hr => ?_⟩, hcomm⟩
  · exact takeFrom_addTo hnew' ▸ hboth.takeFrom b
  · exact ha.free s t hst r ((branchesTo_addTo hb.new).mpr (Or.inr hr))
  · rcases (branchesTo_addTo hnew).mp hr with hr | hr
    · exact ha.free r t hr s ((branchesTo_addTo hb.new).mpr (Or.inl hst))
    · exact hb.free s t hst r hr

end Addition

namespace Graph

variable {g g' : Graph} {a : Addition}

theorem Reconfigured.addTo (h : Reconfigured g g') (a : Addition) :
    Reconfigured (a.addTo g) (a.addTo g') := by
  obtain ⟨hnext, hedges, hsplits, hcovers, hmem⟩ := h
  cases a <;> exact ⟨hnext, by simp [Addition.addTo, hedges], by simp [Addition.addTo, hsplits],
    by simp [Addition.addTo, hcovers], hmem⟩

theorem Reconfigured.has_iff (h : Reconfigured g g') {i : Item} : g'.Has i ↔ g.Has i := by
  cases i with
  | node id => exact h.mem_iff id
  | edge s t => exact iff_of_eq (congrArg (_ ∈ ·) h.edges_eq)
  | split s => exact iff_of_eq (congrArg (_ ∈ ·) h.splits_eq)
  | cover s t => exact iff_of_eq (congrArg (_ ∈ ·) h.covers_eq)

end Graph

/-! ## What is left of the conditions in between -/

namespace Graph

variable {g g' g₁ g₂ : Graph}

/-- Conditions brought up to date before a split was added leave no trace when they are
brought up to date after it. -/
theorem Settles.insert_split (h : Settles g g₁) {s : NodeId} {cases : Cases} (hnew : s ∉ g.splits)
    (h' : Settles { g₁ with splits := g₁.splits.insert s cases } g₂) :
    Settles { g with splits := g.splits.insert s cases } g₂ where
  toReconfigured := (h.toReconfigured.addTo (.split s cases)).trans h'.toReconfigured
  terms := SameTerms.trans h.terms h'.terms fun id => (h.mem_iff id).mpr
  untargeted := by
    intro id hid
    have hmore : ∀ {a}, BranchesTo g.splits a id → BranchesTo (g.splits.insert s cases) a id :=
      fun ha => (Addition.branchesTo_addTo (a := .split s cases) hnew).mpr (Or.inr ha)
    have hid₁ : ∀ a, ¬ BranchesTo (g₁.splits.insert s cases) a id := h.splits_eq ▸ hid
    exact (h'.untargeted id hid₁).trans (h.untargeted id fun a ha => hid a (hmore ha))
  inStep := h'.inStep

/-- Path conditions are as they were, or have been brought up to date. -/
inductive Lands : Bool → Graph → Graph → Prop
  | still (g : Graph) : Lands false g g
  | settled {g g' : Graph} : Settles g g' → Lands true g g'

theorem Lands.reconfigured {up : Bool} (h : Lands up g g') : Reconfigured g g' := by
  cases h with
  | still => exact .refl g
  | settled h => exact h.toReconfigured

theorem Lands.unique {up : Bool} (hsound : Sound g) (h₁ : Lands up g g₁) (h₂ : Lands up g g₂) :
    g₂ = g₁ := by
  cases h₁ with
  | still => cases h₂; rfl
  | settled h₁ =>
    cases h₂ with
    | settled h₂ => exact h₁.unique hsound h₂

/-- One record after another: the conditions are up to date at the end if a call of either
has brought them up to date. -/
theorem Lands.addTo {up : Bool} (h : Lands up g g₁) {a : Addition} (hnew : ¬ g.Has a.item)
    (h' : Lands a.settles (a.addTo g₁) g₂) : Lands (up || a.settles) (a.addTo g) g₂ := by
  cases h with
  | still => exact h'
  | settled h =>
    cases a with
    | split s cases =>
      cases h' with
      | settled h' => exact .settled (h.insert_split hnew h')
    | _ =>
      cases h'
      exact .settled ⟨h.toReconfigured.addTo _, h.terms, h.untargeted, h.inStep⟩

end Graph

namespace Addition

open StateGraph.Graph (Lands)

variable {g g' : Graph} {a b : Addition}

/-- Whether a record is let in does not depend on the configurations. -/
theorem Fits.reconfigured (h : a.Fits g) (hg : Reconfigured g g') : a.Fits g' where
  new := fun hhas => h.new (hg.has_iff.mp hhas)
  sound := h.sound.reconfigured (hg.addTo a)
  free := hg.splits_eq ▸ h.free

/-! ## Calls -/

/-- A record with a fault is turned down. Without one its call ends well, with the record in
its place, and with path conditions up to date if the record is a split. -/
theorem call_run (h : Sound g) :
    (∀ e, a.fault g = some e → a.call.update.run g = .error e g) ∧
      (a.fault g = none →
        ∃ g', a.call.update.run g = .ok () g' ∧ Lands a.settles (a.addTo g) g') := by
  cases a with
  | edge s t steps =>
    simp only [call, Call.update, Update.createEdge_run, fault]
    exact ⟨fun e he => by rw [he], fun hno => ⟨_, by rw [hno]; rfl, .still _⟩⟩
  | cover s t e =>
    simp only [call, Call.update, Update.createCover_run, fault]
    exact ⟨fun e he => by rw [he], fun hno => ⟨_, by rw [hno]; rfl, .still _⟩⟩
  | split s cases =>
    simp only [call, Call.update, Update.discard_run, Update.createSplit_run, fault]
    refine ⟨fun e he => by rw [he], fun hno => ?_⟩
    obtain ⟨n, g', hrun, hsettles, -⟩ :=
      Update.propagate_settles (h.insert_split (Graph.splitFault_eq_none.mp hno))
    have hcases : g'.splits.get? s = some cases := by
      rw [hsettles.splits_eq]
      exact Table.get?_insert_self _ _ _
    exact ⟨g', by simp only [hno, hrun, Update.demand_run, hcases], .settled hsettles⟩

/-- The call of a record ends well exactly when the record fits. -/
theorem call_ok_iff (h : Sound g) : failed (a.call.update.run g) = false ↔ a.Fits g := by
  rw [← fault_eq_none h]
  obtain ⟨hfault, hnone⟩ := call_run (a := a) h
  cases hrun : a.fault g with
  | some e => simp [hfault e hrun, failed]
  | none =>
    obtain ⟨g', hok, -⟩ := hnone hrun
    simp [hok, failed]

theorem Fits.lands (h : Sound g) (ha : a.Fits g) :
    Lands a.settles (a.addTo g) (a.call.after g) := by
  obtain ⟨g', hrun, hlands⟩ := (call_run h).2 ((fault_eq_none h).mpr ha)
  rw [Call.after, hrun]
  exact hlands

/-- Two calls that add a record end well in either order, and leave the same graph. -/
theorem call_comm (h : Sound g) (hb : failed (b.call.update.run g) = false)
    (ha : failed (a.call.update.run (b.call.after g)) = false) :
    failed (a.call.update.run g) = false ∧ failed (b.call.update.run (a.call.after g)) = false ∧
      b.call.after (a.call.after g) = a.call.after (b.call.after g) := by
  have hsound : ∀ a : Addition, Sound (a.call.after g) := fun a => (Call.sound_after h a.call).1
  rw [call_ok_iff h] at hb
  rw [call_ok_iff (hsound b)] at ha
  have hbg := hb.lands h
  have hab := ha.reconfigured hbg.reconfigured.symm
  obtain ⟨ha₀, hba, hcomm⟩ := hb.swap hab
  have hag := ha₀.lands h
  have hb₁ := hba.reconfigured hag.reconfigured
  refine ⟨(call_ok_iff h).mpr ha₀, (call_ok_iff (hsound a)).mpr hb₁, ?_⟩
  have hlands := hbg.addTo hab.new (ha.lands (hsound b))
  have hlands' := hag.addTo hba.new (hb₁.lands (hsound a))
  rw [← hcomm, Bool.or_comm] at hlands'
  exact hlands.unique hab.sound hlands'

end Addition

/-! ## Many records -/

namespace Graph

/-- No call fails, each on the graph that those before it leave. -/
def accepts (g : Graph) : List Call → Bool
  | [] => true
  | c :: calls => !failed (c.update.run g) && (c.after g).accepts calls

theorem accepts_cons {g : Graph} {c : Call} {calls : List Call} : g.accepts (c :: calls) = true ↔
    failed (c.update.run g) = false ∧ (c.after g).accepts calls = true := by
  rw [accepts, Bool.and_eq_true_iff, Bool.not_eq_true']

theorem accepts_perm {g : Graph} (h : Sound g) {records records' : List Addition}
    (hperm : records.Perm records') (haccepts : g.accepts (records.map Addition.call) = true) :
    g.accepts (records'.map Addition.call) = true ∧
      g.afterAll (records'.map Addition.call) = g.afterAll (records.map Addition.call) := by
  induction hperm generalizing g with
  | nil => exact ⟨rfl, rfl⟩
  | cons a _ ih =>
    obtain ⟨ha, hrest⟩ := accepts_cons.mp haccepts
    obtain ⟨hrest', heq⟩ := ih (Call.sound_after h a.call).1 hrest
    exact ⟨accepts_cons.mpr ⟨ha, hrest'⟩, heq⟩
  | swap a b rest =>
    obtain ⟨hb, hrest⟩ := accepts_cons.mp haccepts
    obtain ⟨ha, hrest⟩ := accepts_cons.mp hrest
    obtain ⟨ha', hb', hcomm⟩ := Addition.call_comm h hb ha
    refine ⟨accepts_cons.mpr ⟨ha', accepts_cons.mpr ⟨hb', hcomm ▸ hrest⟩⟩, ?_⟩
    exact congrArg (fun g => afterAll g (rest.map Addition.call)) hcomm
  | trans _ _ ih₁ ih₂ =>
    obtain ⟨haccepts₁, heq₁⟩ := ih₁ h haccepts
    obtain ⟨haccepts₂, heq₂⟩ := ih₂ h haccepts₁
    exact ⟨haccepts₂, heq₂.trans heq₁⟩

end Graph

/-- The order in which edges, covers and splits come does not matter. If all of them are let
in when they come in one order, all of them are in every other order, and the same graph is
left. -/
theorem Reachable.records_in_any_order {g : Graph} (h : Reachable g)
    {records records' : List Addition} (hperm : records.Perm records')
    (haccepts : g.accepts (records.map Addition.call) = true) :
    g.accepts (records'.map Addition.call) = true ∧
      g.afterAll (records'.map Addition.call) = g.afterAll (records.map Addition.call) :=
  Graph.accepts_perm h.sound hperm haccepts

/-- The topmost node has been given another condition since its split was made. Of the splits
to come one stands below the other, and the lower one may come first. -/
theorem records_in_any_order_drift :
    let g := Graph.empty.afterAll
      (drift ++ [.addNode { term := .var "F" }, .addNode { term := .var "G" }])
    let records : List Addition := [.split 4 { guards := .ofList [(6, .assume [.var "U"])] },
      .edge 5 7 [.guard .top], .cover 3 6 .top,
      .split 6 { guards := .ofList [(7, .assume [.var "V"])] }]
    g.accepts (records.map Addition.call) = true ∧
      g.accepts (records.reverse.map Addition.call) = true ∧
      g.afterAll (records.reverse.map Addition.call) = g.afterAll (records.map Addition.call) ∧
      (g.afterAll (records.map Addition.call)).constraints? 7 =
        some [.var "T", .var "P", .var "S", .var "U", .var "V"] := by
  intro g records
  have hreachable : Reachable g := ⟨.empty, _, .empty, rfl⟩
  have haccepts : g.accepts (records.map Addition.call) = true := by decide +kernel
  obtain ⟨haccepts', hsame⟩ := hreachable.records_in_any_order records.reverse_perm.symm haccepts
  exact ⟨haccepts, haccepts', hsame, by decide +kernel⟩

end StateGraph
