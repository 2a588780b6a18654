-- Snapshots out of JSON texts. A text is read as a whole before any of its
-- records is checked against another. Fields that hold empty lists may be
-- left out, and fields that no record has are passed over.
import StateGraph.Snapshot.Basic
import StateGraph.Json.Record
import StateGraph.Json.Parse

namespace StateGraph

open Json (fields? required optional list? text? word?)

/-! ## Terms -/

inductive Term.Kind where
  | var
  | token
  | apply
  | sequence
  deriving DecidableEq, Inhabited

namespace Term

/-- The kind that a tag names. Inside another term, the kinds also go by their
numbers. -/
def Kind.ofJson? (inner : Bool) : Json → Option Kind
  | .string (some "variable") => some .var
  | .string (some "token") => some .token
  | .string (some "apply") => some .apply
  | .string (some "sequence") => some .sequence
  | .number n =>
    match inner, n.nat? with
    | true, some 0 => some .var
    | true, some 1 => some .token
    | true, some 2 => some .apply
    | true, some 3 => some .sequence
    | _, _ => none
  | _ => none

/-- A term out of a value that can be kept. -/
def build? (inner : Bool) : Nat → Json → Option Term
  | 0, _ => none
  | room + 1, j => do
    let (tag, rest) ← Json.tagged? "kind" j
    match ← Kind.ofJson? inner tag with
    | .var =>
      let [name] ← fields? ["name"] rest | none
      return .var (← required text? name)
    | .token =>
      let [text, sort] ← fields? ["token", "sort"] rest | none
      return .token (← required text? text) (← required text? sort)
    | .apply =>
      let [label, args] ← fields? ["label", "args"] rest | none
      return .apply (← required text? label) (← terms? room args)
    | .sequence =>
      let [items] ← fields? ["items"] rest | none
      return .sequence (← terms? room items)
where
  /-- The terms of an array, all inside the one being read. -/
  terms? : Nat → Option Json → Option (List Term)
    | room + 1, some (.array items) => items.mapM (build? true room)
    | _, _ => none

/-- A term out of a value. Its kind may come last, so all of it is kept until
then. -/
def ofJson? (room : Nat) (j : Json) : Option Term :=
  if j.keepable room then build? false room j else none

/-- Bindings out of an object. The last of two bindings of one name stays. -/
def bindings? : Nat → Json → Option Bindings
  | room + 1, .object fields =>
    Table.ofList <$> fields.mapM fun (x, j) => return (← x, ← ofJson? room j)
  | _, _ => none

end Term

/-! ## Records

Each record names its fields in the order in which an array gives them. -/

def Config.ofJson? : Nat → Json → Option Config
  | 0, _ => none
  | room + 1, j => do
    let [term, constraints] ← fields? ["term", "constraints"] j | none
    return {
      term := ← required (Term.ofJson? room) term
      constraints := ← optional [] (list? Term.ofJson? room) constraints }

/-- An effect out of a record, all of which may be left out. -/
def Effect.ofJson? : Nat → Json → Option Effect
  | 0, _ => none
  | room + 1, j => do
    let [bindings, constraints] ← fields? ["subst", "constraints"] j | none
    return {
      bindings := ← optional ∅ (Term.bindings? room) bindings
      constraints := ← optional [] (list? Term.ofJson? room) constraints }

def Step.ofJson? : Nat → Json → Option Step
  | 0, _ => none
  | room + 1, j => do
    let [depth, rules, effect] ← fields? ["depth", "rules", "csubst"] j | none
    return {
      depth := .ofNat (← required word? depth)
      rules := ← optional [] (list? (fun _ => text?) room) rules
      effect := ← required (Effect.ofJson? room) effect }

def NodeRecord.ofJson? : Nat → Json → Option NodeRecord
  | 0, _ => none
  | room + 1, j => do
    let [id, config] ← fields? ["id", "cterm"] j | none
    return { id := ← required word? id, config := ← required (Config.ofJson? room) config }

def EdgeRecord.ofJson? : Nat → Json → Option EdgeRecord
  | 0, _ => none
  | room + 1, j => do
    let [source, target, steps] ← fields? ["source", "target", "steps"] j | none
    return {
      source := ← required word? source
      target := ← required word? target
      steps := ← required (list? Step.ofJson? room) steps }

def BranchRecord.ofJson? : Nat → Json → Option BranchRecord
  | 0, _ => none
  | room + 1, j => do
    let [target, effect] ← fields? ["target", "csubst"] j | none
    return { target := ← required word? target, effect := ← required (Effect.ofJson? room) effect }

def SplitRecord.ofJson? : Nat → Json → Option SplitRecord
  | 0, _ => none
  | room + 1, j => do
    let [source, shared, targets] ← fields? ["source", "csubst", "targets"] j | none
    return {
      source := ← required word? source
      shared := ← required (Effect.ofJson? room) shared
      targets := ← required (list? BranchRecord.ofJson? room) targets }

def CoverRecord.ofJson? : Nat → Json → Option CoverRecord
  | 0, _ => none
  | room + 1, j => do
    let [source, target, effect] ← fields? ["source", "target", "csubst"] j | none
    return {
      source := ← required word? source
      target := ← required word? target
      effect := ← required (Effect.ofJson? room) effect }

def Snapshot.ofJson? : Nat → Json → Option Snapshot
  | 0, _ => none
  | room + 1, j => do
    let [next, nodes, edges, splits, covers] ←
      fields? ["next", "nodes", "edges", "splits", "covers"] j | none
    return {
      next := ← required word? next
      nodes := ← required (list? NodeRecord.ofJson? room) nodes
      edges := ← optional [] (list? EdgeRecord.ofJson? room) edges
      splits := ← optional [] (list? SplitRecord.ofJson? room) splits
      covers := ← optional [] (list? CoverRecord.ofJson? room) covers }

/-- The graph whose snapshot a text is. -/
def Graph.ofText (s : String) : Except Error Graph :=
  match Json.parse? s with
  | none => .error (.serialization "the text is not JSON")
  | some j =>
    match Snapshot.ofJson? Json.maxDepth j with
    | none => .error (.serialization "the JSON value is not a snapshot")
    | some s => Graph.ofSnapshot s

end StateGraph
