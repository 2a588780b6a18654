-- Numbers as JSON writes them. A numeral is kept by its digits: whether it is
-- a natural number or one that a double can hold is asked of it afterwards.
namespace StateGraph

/-- A number by its digits. -/
structure Numeral where
  negative : Bool := false
  whole : List Char := []
  /-- The digits after the point, none without a point. -/
  fraction : List Char := []
  /-- The sign and the digits of the exponent. -/
  exponent : Option (Bool × List Char) := none
  deriving DecidableEq, Inhabited

namespace Numeral

def ofNat (n : Nat) : Numeral := { whole := Nat.toDigits 10 n }

/-- The natural number written, if the numeral is digits alone. -/
def nat? (n : Numeral) : Option Nat :=
  if !n.negative && n.fraction.isEmpty && n.exponent.isNone then
    some (Nat.ofDigitChars 10 n.whole 0)
  else none

def chars (n : Numeral) : List Char :=
  let point := if n.fraction.isEmpty then [] else '.' :: n.fraction
  let power := match n.exponent with
    | none => []
    | some (below, digits) => 'e' :: if below then '-' :: digits else digits
  (if n.negative then ['-'] else []) ++ n.whole ++ point ++ power

/-! ## The range of doubles -/

/-- Appends digits to a number as long as it stays below `2 ^ 64`. Gives the
number, and how many digits were left over. -/
def absorb (number : Nat) : List Char → Nat × Nat
  | [] => (number, 0)
  | c :: rest =>
    let wider := Nat.ofDigitChars 10 [c] number
    if wider < UInt64.size then absorb wider rest else (number, rest.length + 1)

/-- A natural number rounded to 53 binary digits, a half to the even
neighbour. -/
def round53 (n : Nat) : Nat :=
  let unit := Nat.pow 2 (n.log2 - 52)
  let low := n % unit
  let down := n / unit
  if unit < 2 * low ∨ (unit = 2 * low ∧ down % 2 = 1) then (down + 1) * unit else down * unit

/-- What lies at or above this number rounds to no finite double. -/
def doubleBound : Nat := Nat.pow 2 1024 - Nat.pow 2 970

/-- The digits that 64 bits hold, and the power of ten that they stand for
before the exponent is counted. -/
def significand (n : Numeral) : Nat × Int :=
  let (first, extra) := absorb 0 n.whole
  let (number, dropped) := absorb first n.fraction
  (number, extra - (n.fraction.length - dropped : Nat))

/-- The sign and the size of the exponent. -/
def power (n : Numeral) : Bool × Nat :=
  match n.exponent with
  | none => (false, 0)
  | some (below, digits) => (below, Nat.ofDigitChars 10 digits 0)

/-- A double holds the number, when its significand is rounded to a double and
scaled by the double nearest to a power of ten. Exponents from `2 ^ 31` on
count as endless. -/
def inRange (n : Numeral) : Bool :=
  let (number, scale) := n.significand
  let (below, size) := n.power
  if number = 0 then true
  else if 0x80000000 ≤ size then below
  else
    let scale := if below then scale - size else scale + size
    scale ≤ 308 && round53 number * round53 (Nat.pow 10 scale.toNat) < doubleBound

end Numeral

end StateGraph
