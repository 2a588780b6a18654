-- The tokens of a JSON text. The text is read one character at a time by a
-- machine with few states, so reading two texts in a row is reading the
-- second from where the first left the machine.
import StateGraph.Json.Numeral

namespace StateGraph.Json

inductive Token where
  | openArray
  | closeArray
  | openObject
  | closeObject
  | comma
  | colon
  | null
  | bool (value : Bool)
  | number (value : Numeral)
  | string (text : Option String)
  deriving DecidableEq, Inhabited

/-! ## Strings -/

/-- The part of a string read so far. -/
structure Held where
  /-- Its text, unless half of a surrogate pair was left alone in it. -/
  text : Option String := some ""
  /-- The first half of a surrogate pair whose second half has to come next. -/
  high : Option Nat := none
  deriving DecidableEq, Inhabited

namespace Held

/-- A character after what is held. -/
def add (h : Held) (c : Char) : Held :=
  match h.high with
  | none => { text := h.text.map (·.push c) }
  | some _ => { text := none }

/-- A 16-bit unit after what is held: a character, or half of a pair. -/
def addUnit (h : Held) (u : Nat) : Held :=
  if 0xD800 ≤ u ∧ u < 0xDC00 then
    match h.high with
    | none => { h with high := some u }
    | some _ => { text := none }
  else if 0xDC00 ≤ u ∧ u < 0xE000 then
    match h.high with
    | none => { text := none }
    | some first =>
      { text := h.text.map (·.push (Char.ofNat (0x10000 + (first - 0xD800) * 0x400 + (u - 0xDC00)))) }
  else h.add (Char.ofNat u)

/-- The text, once the string is over. -/
def close (h : Held) : Option String := if h.high.isSome then none else h.text

end Held

/-- The character that a letter after a backslash stands for. -/
def escaped? : Char → Option Char
  | '"' => some '"'
  | '\\' => some '\\'
  | '/' => some '/'
  | 'b' => some '\x08'
  | 'f' => some '\x0c'
  | 'n' => some '\n'
  | 'r' => some '\r'
  | 't' => some '\t'
  | _ => none

def hexValue? (c : Char) : Option Nat :=
  if '0' ≤ c ∧ c ≤ '9' then some (c.toNat - '0'.toNat)
  else if 'a' ≤ c ∧ c ≤ 'f' then some (c.toNat - 'a'.toNat + 10)
  else if 'A' ≤ c ∧ c ≤ 'F' then some (c.toNat - 'A'.toNat + 10)
  else none

/-! ## Numbers -/

/-- Where in a number the last character stood. -/
inductive NumberPart where
  | sign
  | zero
  | whole
  | point
  | fraction
  | mark
  | markSign
  | exponent
  deriving DecidableEq, Inhabited

namespace NumberPart

/-- A number may end here. -/
def final : NumberPart → Bool
  | .zero | .whole | .fraction | .exponent => true
  | .sign | .point | .mark | .markSign => false

/-- The number after one more character, if that belongs to it. -/
def next? (part : NumberPart) (n : Numeral) (c : Char) : Option (NumberPart × Numeral) :=
  match part with
  | .sign =>
    if c = '0' then some (.zero, { n with whole := ['0'] })
    else if c.isDigit then some (.whole, { n with whole := [c] })
    else none
  | .zero => afterWhole c
  | .whole => if c.isDigit then some (.whole, { n with whole := n.whole ++ [c] }) else afterWhole c
  | .point => if c.isDigit then some (.fraction, { n with fraction := [c] }) else none
  | .fraction =>
    if c.isDigit then some (.fraction, { n with fraction := n.fraction ++ [c] }) else power c
  | .mark =>
    if c = '+' then some (.markSign, { n with exponent := some (false, []) })
    else if c = '-' then some (.markSign, { n with exponent := some (true, []) })
    else digit c
  | .markSign => digit c
  | .exponent => digit c
where
  /-- A point or an exponent may follow the whole part. -/
  afterWhole (c : Char) : Option (NumberPart × Numeral) :=
    if c = '.' then some (.point, n) else power c
  power (c : Char) : Option (NumberPart × Numeral) :=
    if c = 'e' ∨ c = 'E' then some (.mark, { n with exponent := some (false, []) }) else none
  digit (c : Char) : Option (NumberPart × Numeral) :=
    if c.isDigit then
      some (.exponent, { n with exponent := n.exponent.map fun (b, ds) => (b, ds ++ [c]) })
    else none

end NumberPart

/-! ## The machine -/

/-- What the machine is in the middle of. -/
inductive Mode where
  | between
  /-- In a word that can only go on in one way. -/
  | word (rest : List Char) (token : Token)
  | number (part : NumberPart) (value : Numeral)
  | text (held : Held)
  | escape (held : Held)
  /-- In the four digits of a unit, with some of them left to read. -/
  | unit (held : Held) (left : Nat) (value : Nat)
  deriving DecidableEq, Inhabited

/-- The state of the machine: its mode, and the tokens read, last first. -/
structure Scan where
  mode : Mode := .between
  tokens : List Token := []
  deriving DecidableEq, Inhabited

namespace Scan

def emit (s : Scan) (t : Token) : Scan := { mode := .between, tokens := t :: s.tokens }

def enter (s : Scan) (m : Mode) : Scan := { s with mode := m }

/-- A character between two tokens begins the next one. -/
def begin (s : Scan) (c : Char) : Option Scan :=
  match c with
  | ' ' | '\t' | '\n' | '\r' => some (s.enter .between)
  | '[' => some (s.emit .openArray)
  | ']' => some (s.emit .closeArray)
  | '{' => some (s.emit .openObject)
  | '}' => some (s.emit .closeObject)
  | ',' => some (s.emit .comma)
  | ':' => some (s.emit .colon)
  | '"' => some (s.enter (.text {}))
  | 'n' => some (s.enter (.word ['u', 'l', 'l'] .null))
  | 't' => some (s.enter (.word ['r', 'u', 'e'] (.bool true)))
  | 'f' => some (s.enter (.word ['a', 'l', 's', 'e'] (.bool false)))
  | '-' => some (s.enter (.number .sign { negative := true }))
  | c => (NumberPart.sign.next? {} c).map fun (part, n) => s.enter (.number part n)

/-- A character inside a word. -/
def spell (s : Scan) (c : Char) (token : Token) : List Char → Option Scan
  | [] => none
  | [d] => if c = d then some (s.emit token) else none
  | d :: rest => if c = d then some (s.enter (.word rest token)) else none

/-- The machine after one more character, unless no JSON text goes on so. -/
def step (s : Scan) (c : Char) : Option Scan :=
  match s.mode with
  | .between => s.begin c
  | .word rest token => s.spell c token rest
  | .number part n =>
    match part.next? n c with
    | some (part, n) => some (s.enter (.number part n))
    | none => if part.final then (s.emit (.number n)).begin c else none
  | .text held =>
    if c = '"' then some (s.emit (.string held.close))
    else if c = '\\' then some (s.enter (.escape held))
    else if c < ' ' then none
    else some (s.enter (.text (held.add c)))
  | .escape held =>
    if c = 'u' then some (s.enter (.unit held 4 0))
    else (escaped? c).map fun d => s.enter (.text (held.add d))
  | .unit held left value =>
    (hexValue? c).map fun d =>
      let value := value * 16 + d
      if left ≤ 1 then s.enter (.text (held.addUnit value))
      else s.enter (.unit held (left - 1) value)

/-- The tokens read, if the text may end here. -/
def finish (s : Scan) : Option (List Token) :=
  match s.mode with
  | .between => some s.tokens.reverse
  | .number part n => if part.final then some (s.emit (.number n)).tokens.reverse else none
  | _ => none

end Scan

def tokens? (s : String) : Option (List Token) := do
  (← s.toList.foldlM Scan.step {}).finish

end StateGraph.Json
