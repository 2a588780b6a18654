-- Reading records out of JSON values. A record is an object of named fields,
-- or an array of the same fields in their order. Reading is given the number
-- of arrays and objects that may still stand inside one another: an array or
-- object takes one of them, and without any left nothing more can be opened.
import StateGraph.Json.Basic

namespace StateGraph.Json

/-- How many arrays and objects a text may have inside one another. -/
def maxDepth : Nat := 127

/-! ## Leaves -/

def text? : Json → Option String
  | .string s => s
  | _ => none

/-- A natural number below `2 ^ 64`. -/
def word? : Json → Option Nat
  | .number n => n.nat?.filter (· < UInt64.size)
  | _ => none

/-! ## Records -/

/-- Fields of an object under a name. -/
def fieldsNamed (name : String) (fields : List (Option String × Json)) : List Json :=
  (fields.filter fun f => f.1 == some name).map (·.2)

/-- The one field under a name, or none. A name that stands twice is
refused. -/
def fieldNamed (fields : List (Option String × Json)) (name : String) : Option (Option Json) :=
  match fieldsNamed name fields with
  | [] => some none
  | [j] => some (some j)
  | _ => none

/-- The fields of a record by their names, each where it is given. Other
fields of an object are passed over, but every name has to be a text; an array
gives the first fields, and no more than there are. -/
def fields? (names : List String) : Json → Option (List (Option Json))
  | .object fields => if fields.all (·.1.isSome) then names.mapM (fieldNamed fields) else none
  | .array items =>
    if items.length ≤ names.length then
      some (items.map some ++ List.replicate (names.length - items.length) none)
    else none
  | _ => none

/-- A field that may be left out. It then has its default. -/
def optional {α : Type} (default : α) (read : Json → Option α) : Option Json → Option α
  | some j => read j
  | none => some default

/-- A field that has to be given. -/
def required {α : Type} (read : Json → Option α) (j : Option Json) : Option α := j.bind read

def list? {α : Type} (read : Nat → Json → Option α) : Nat → Json → Option (List α)
  | room + 1, .array items => items.mapM (read room)
  | _, _ => none

/-! ## Passing over -/

/-- A value can be kept until it is known what it is for: it is not too deep,
all its strings are texts, and doubles can hold its numbers. -/
def keepable : Nat → Json → Bool
  | _, .null | _, .bool _ => true
  | _, .number n => n.inRange
  | _, .string s => s.isSome
  | room + 1, .array items => items.all (keepable room)
  | room + 1, .object fields => fields.all fun f => f.1.isSome && keepable room f.2
  | 0, .array _ | 0, .object _ => false

/-- A value with a tag: an object in which the tag is a field, anywhere but
once, or an array that begins with it. -/
def tagged? (name : String) : Json → Option (Json × Json)
  | .object fields =>
    match fieldsNamed name fields with
    | [tag] => some (tag, .object (fields.filter fun f => f.1 != some name))
    | _ => none
  | .array (tag :: items) => some (tag, .array items)
  | _ => none

end StateGraph.Json
