-- JSON values, with what a text says kept as it was said: a number by its
-- digits, an object by its fields in their order, repeated ones included.
import StateGraph.Json.Numeral

namespace StateGraph

/-- A JSON value. A string is missing its text when half of a surrogate pair
was written into it, which no text can hold. -/
inductive Json where
  | null
  | bool (value : Bool)
  | number (value : Numeral)
  | string (text : Option String)
  | array (items : List Json)
  | object (fields : List (Option String × Json))
  deriving Inhabited

namespace Json

def text (s : String) : Json := .string (some s)

def nat (n : Nat) : Json := .number (.ofNat n)

def record (fields : List (String × Json)) : Json := .object (fields.map fun (k, v) => (some k, v))

mutual

/-- How many arrays and objects stand inside one another. -/
def depth : Json → Nat
  | .array items => depthAll items + 1
  | .object fields => depthFields fields + 1
  | _ => 0

def depthAll : List Json → Nat
  | [] => 0
  | j :: js => max (depth j) (depthAll js)

def depthFields : List (Option String × Json) → Nat
  | [] => 0
  | (_, j) :: fields => max (depth j) (depthFields fields)

end

end Json

end StateGraph
