-- Writing JSON values. Two layouts differ only in the blanks they put between
-- tokens: one puts none, the other sets each item on a line of its own.
import StateGraph.Json.Basic

namespace StateGraph.Json

/-! ## Strings -/

def hexDigit (n : Nat) : Char := (Nat.toDigits 16 n).getLastD '0'

/-- How a character is written inside a string. Quotes, backslashes and
control characters are escaped, everything else stands for itself. -/
def escape (c : Char) : List Char :=
  if c = '"' then ['\\', '"']
  else if c = '\\' then ['\\', '\\']
  else if c = '\x08' then ['\\', 'b']
  else if c = '\t' then ['\\', 't']
  else if c = '\n' then ['\\', 'n']
  else if c = '\x0c' then ['\\', 'f']
  else if c = '\r' then ['\\', 'r']
  else if c < ' ' then
    ['\\', 'u', '0', '0', hexDigit (c.toNat / 16), hexDigit (c.toNat % 16)]
  else [c]

/-- A string in quotes. Where its text is missing, half of a surrogate pair
stands alone. -/
def quote : Option String → String
  | some s => "\"" ++ String.ofList (s.toList.flatMap escape) ++ "\""
  | none => "\"\\ud800\""

/-! ## Layouts -/

/-- The blanks between tokens. -/
structure Layout where
  /-- What stands before an item, or before the end of its list, that many
  lists deep. -/
  line : Nat → String
  /-- What stands after a colon. -/
  gap : String

/-- No blanks at all. -/
def Layout.compact : Layout := ⟨fun _ => "", ""⟩

/-- Two blanks of indentation for each list, and one after a colon. -/
def Layout.indented : Layout := ⟨fun depth => "\n" ++ "".pushn ' ' (2 * depth), " "⟩

/-- Items between brackets. An empty list takes no blanks. -/
def bracket (l : Layout) (depth : Nat) (left right : String) : List String → String
  | [] => left ++ right
  | items => left ++ ",".intercalate (items.map (l.line (depth + 1) ++ ·)) ++ l.line depth ++ right

mutual

/-- A value as text. -/
def renderAt (l : Layout) (depth : Nat) : Json → String
  | .null => "null"
  | .bool b => if b then "true" else "false"
  | .number n => String.ofList n.chars
  | .string s => quote s
  | .array items => bracket l depth "[" "]" (renderItems l (depth + 1) items)
  | .object fields => bracket l depth "\x7b" "\x7d" (renderFields l (depth + 1) fields)

/-- The items of an array as texts. -/
def renderItems (l : Layout) (depth : Nat) : List Json → List String
  | [] => []
  | j :: js => renderAt l depth j :: renderItems l depth js

/-- The fields of an object as texts. -/
def renderFields (l : Layout) (depth : Nat) : List (Option String × Json) → List String
  | [] => []
  | (k, j) :: fields =>
    (quote k ++ ":" ++ l.gap ++ renderAt l depth j) :: renderFields l depth fields

end

/-- A value as text in a layout. -/
def render (l : Layout) (j : Json) : String := renderAt l 0 j

end StateGraph.Json
