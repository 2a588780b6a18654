-- How texts spell tokens, and that the machine reads every spelling. A number ends
-- only with what follows it, so what follows a numeral may not go on with it.
import StateGraph.Json.Token
import Mathlib.Data.List.Basic

namespace StateGraph.Json

/-- The tokens of the rest of a text, for a machine in the middle of it. -/
def scan (s : Scan) (cs : List Char) : Option (List Token) :=
  (cs.foldlM Scan.step s).bind Scan.finish

theorem tokens?_eq (s : String) : tokens? s = scan {} s.toList := rfl

theorem scan_cons (s : Scan) (c : Char) (cs : List Char) :
    scan s (c :: cs) = (s.step c).bind (scan · cs) := by
  simp only [scan, List.foldlM_cons, Option.bind_eq_bind, Option.bind_assoc]

theorem scan_step {s s' : Scan} {c : Char} (h : s.step c = some s') (cs : List Char) :
    scan s (c :: cs) = scan s' cs := by
  rw [scan_cons, h, Option.bind_some]

/-! ## Strings -/

/-- The number that some hexadecimal digits stand for, after a number before them. -/
def hexNumber? (before : Nat) (ds : List Char) : Option Nat :=
  ds.foldlM (fun v d => (hexValue? d).map (v * 16 + ·)) before

/-- How a character may be written inside a string: as it is, by a letter after a
backslash, or by its one or two units. -/
inductive Written (c : Char) : List Char → Prop
  | plain (quote : c ≠ '"') (backslash : c ≠ '\\') (control : ¬ c < ' ') : Written c [c]
  | letter {d : Char} (escaped : escaped? d = some c) : Written c ['\\', d]
  | unit {d₁ d₂ d₃ d₄ : Char} {u : Nat} (hex : hexNumber? 0 [d₁, d₂, d₃, d₄] = some u)
      (whole : u < 0xD800 ∨ 0xE000 ≤ u) (char : Char.ofNat u = c) :
      Written c ['\\', 'u', d₁, d₂, d₃, d₄]
  | pair {d₁ d₂ d₃ d₄ e₁ e₂ e₃ e₄ : Char} {high low : Nat}
      (hexHigh : hexNumber? 0 [d₁, d₂, d₃, d₄] = some high)
      (hexLow : hexNumber? 0 [e₁, e₂, e₃, e₄] = some low)
      (highHalf : 0xD800 ≤ high ∧ high < 0xDC00) (lowHalf : 0xDC00 ≤ low ∧ low < 0xE000)
      (char : Char.ofNat (0x10000 + (high - 0xD800) * 0x400 + (low - 0xDC00)) = c) :
      Written c ['\\', 'u', d₁, d₂, d₃, d₄, '\\', 'u', e₁, e₂, e₃, e₄]

/-- How a text may be written inside a string. -/
inductive WrittenAll : List Char → List Char → Prop
  | nil : WrittenAll [] []
  | cons {c : Char} {cs w ws : List Char} (first : Written c w) (rest : WrittenAll cs ws) :
      WrittenAll (c :: cs) (w ++ ws)

/-- The machine inside a string, with a text read so far. -/
def within (done : List Token) (text : List Char) : Scan :=
  { mode := .text { text := some (String.ofList text) }, tokens := done }

theorem push_ofList (cs : List Char) (c : Char) :
    (String.ofList cs).push c = String.ofList (cs ++ [c]) := by
  rw [← String.toList_inj]
  simp

theorem held_add (text : List Char) (c : Char) :
    Held.add { text := some (String.ofList text) } c =
      { text := some (String.ofList (text ++ [c])) } := by
  rw [← push_ofList]
  rfl

/-- Digits are read into the unit, and the last of them ends it. -/
theorem scan_unit {done : List Token} {held : Held} {ds : List Char} {before u : Nat}
    (hds : ds ≠ []) (hu : hexNumber? before ds = some u) (rest : List Char) :
    scan { mode := .unit held ds.length before, tokens := done } (ds ++ rest) =
      scan { mode := .text (held.addUnit u), tokens := done } rest := by
  induction ds generalizing before with
  | nil => exact absurd rfl hds
  | cons d ds ih =>
    rw [hexNumber?, List.foldlM_cons] at hu
    cases hd : hexValue? d with
    | none =>
      rw [hd] at hu
      cases hu
    | some v =>
      rw [hd] at hu
      have hu : hexNumber? (before * 16 + v) ds = some u := hu
      cases ds with
      | nil =>
        cases hu
        exact scan_step (by simp [Scan.step, hd, Scan.enter]) rest
      | cons d' ds =>
        rw [← ih (List.cons_ne_nil _ _) hu]
        exact scan_step (by simp [Scan.step, hd, Scan.enter]) _

/-- A unit is read by its four digits. -/
theorem scan_unitEscape {d₁ d₂ d₃ d₄ : Char} {u : Nat} (hu : hexNumber? 0 [d₁, d₂, d₃, d₄] = some u)
    (done : List Token) (held : Held) (rest : List Char) :
    scan { mode := .text held, tokens := done } ('\\' :: 'u' :: d₁ :: d₂ :: d₃ :: d₄ :: rest) =
      scan { mode := .text (held.addUnit u), tokens := done } rest := by
  refine (scan_step rfl _).trans ((scan_step rfl _).trans ?_)
  exact scan_unit (List.cons_ne_nil _ _) hu rest

/-- A character is read from each way to write it. -/
theorem scan_written {c : Char} {w : List Char} (h : Written c w) (done : List Token)
    (text rest : List Char) :
    scan (within done text) (w ++ rest) = scan (within done (text ++ [c])) rest := by
  cases h with
  | plain hquote hslash hcontrol =>
    refine scan_step ?_ rest
    simp [within, Scan.step, Scan.enter, hquote, hslash, hcontrol, held_add]
  | @letter d hd =>
    have hne : d ≠ 'u' := by
      rintro rfl
      cases hd
    refine (scan_step rfl _).trans (scan_step ?_ rest)
    simp [within, Scan.step, Scan.enter, hne, hd, held_add]
  | unit hu hwhole hc =>
    refine (scan_unitEscape hu done _ rest).trans ?_
    unfold Held.addUnit
    rw [if_neg (by omega), if_neg (by omega), hc, held_add, within]
  | @pair _ _ _ _ _ _ _ _ high low hhigh hlow hfirst hsecond hc =>
    refine (scan_unitEscape hhigh done _ _).trans ((scan_unitEscape hlow done _ rest).trans ?_)
    have hno : ¬ (0xD800 ≤ low ∧ low < 0xDC00) := by omega
    have hadd : (Held.addUnit { text := some (String.ofList text) } high).addUnit low =
        { text := some (String.ofList (text ++ [c])) } := by
      unfold Held.addUnit
      rw [if_pos hfirst, if_neg hno, if_pos hsecond, ← push_ofList, ← hc]
      rfl
    rw [hadd, within]

theorem scan_writtenAll {cs ws : List Char} (h : WrittenAll cs ws) (done : List Token)
    (text rest : List Char) :
    scan (within done text) (ws ++ rest) = scan (within done (text ++ cs)) rest := by
  induction h generalizing text with
  | nil => simp
  | cons hc _ ih => rw [List.append_assoc, scan_written hc, ih, List.append_assoc]; rfl

/-- A string is read as the text written into it. -/
theorem scan_string {s : String} {ws : List Char} (h : WrittenAll s.toList ws) (done : List Token)
    (rest : List Char) :
    scan { tokens := done } ('"' :: (ws ++ '"' :: rest)) =
      scan { tokens := .string (some s) :: done } rest := by
  have hopen : scan { tokens := done } ('"' :: (ws ++ '"' :: rest)) =
      scan (within done []) (ws ++ '"' :: rest) := scan_step rfl _
  rw [hopen, scan_writtenAll h, List.nil_append]
  refine scan_step ?_ rest
  simp [within, Scan.step, Scan.emit, Held.close]

/-! ## Numbers -/

/-- A character that does not go on with a natural number. -/
def endsNumber (c : Char) : Prop := c.isDigit = false ∧ c ≠ '.' ∧ c ≠ 'e' ∧ c ≠ 'E'

/-- What follows does not go on with a number. -/
def Delimited (cs : List Char) : Prop := ∀ c rest, cs = c :: rest → endsNumber c

theorem delimited_cons {c : Char} (h : endsNumber c) (cs : List Char) : Delimited (c :: cs) := by
  rintro d rest he
  obtain ⟨rfl, rfl⟩ := List.cons.inj he
  exact h

/-- The machine inside a natural number. -/
def counting (done : List Token) (n : Nat) : Scan :=
  { mode := .number (if n = 0 then .zero else .whole) (.ofNat n), tokens := done }

theorem scan_digit {done : List Token} {n : Nat} (h : n < 10) (rest : List Char) :
    scan { tokens := done } (n.digitChar :: rest) = scan (counting done n) rest := by
  refine scan_step ?_ rest
  have hten : n = 0 ∨ n = 1 ∨ n = 2 ∨ n = 3 ∨ n = 4 ∨ n = 5 ∨ n = 6 ∨ n = 7 ∨ n = 8 ∨ n = 9 := by
    omega
  rcases hten with rfl | rfl | rfl | rfl | rfl | rfl | rfl | rfl | rfl | rfl <;> rfl

/-- The digits of a number are read into it. -/
theorem scan_digits (done : List Token) (n : Nat) (rest : List Char) :
    scan { tokens := done } (Nat.toDigits 10 n ++ rest) = scan (counting done n) rest := by
  -- all digits but the last are those of a tenth of the number
  induction n using Nat.strongRecOn generalizing rest with
  | _ n ih =>
    by_cases hn : n < 10
    · rw [Nat.toDigits_of_lt_base hn]
      exact scan_digit hn rest
    · have hbase : 10 ≤ n := Nat.le_of_not_lt hn
      have hdigits := Nat.toDigits_of_base_le (by omega) hbase
      rw [hdigits, List.append_assoc, ih (n / 10) (by omega)]
      refine scan_step ?_ rest
      have hdigit : (n % 10).digitChar.isDigit = true :=
        Nat.isDigit_of_mem_toDigits (by omega) (by omega) (hdigits ▸ List.mem_concat_self)
      have htenth : n / 10 ≠ 0 := by omega
      have hpos : n ≠ 0 := by omega
      simp [counting, Scan.step, Scan.enter, NumberPart.next?, Numeral.ofNat, hdigit, htenth, hpos,
        hdigits]

/-- A number ends before what does not go on with it. -/
theorem scan_counting {rest : List Char} (h : Delimited rest) (done : List Token) (n : Nat) :
    scan (counting done n) rest = scan { tokens := .number (.ofNat n) :: done } rest := by
  cases rest with
  | nil =>
    by_cases hn : n = 0 <;> simp [scan, counting, Scan.finish, hn, NumberPart.final, Scan.emit]
  | cons c rest =>
    obtain ⟨hdigit, hpoint, he, hE⟩ := h c rest rfl
    have hstep : (counting done n).step c =
        (Scan.mk .between (.number (.ofNat n) :: done)).step c := by
      by_cases hn : n = 0 <;>
        simp [counting, Scan.step, NumberPart.next?, NumberPart.next?.afterWhole,
          NumberPart.next?.power, NumberPart.final, Scan.emit, hn, hdigit, hpoint, he, hE]
    rw [scan_cons, scan_cons, hstep]

/-! ## Texts -/

/-- A character that may stand between any two tokens. -/
inductive Blank : Char → Prop
  | space : Blank ' '
  | tab : Blank '\t'
  | line : Blank '\n'
  | carriage : Blank '\r'

/-- The tokens that are one character. -/
def Token.mark? : Token → Option Char
  | .openArray => some '['
  | .closeArray => some ']'
  | .openObject => some '\x7b'
  | .closeObject => some '\x7d'
  | .comma => some ','
  | .colon => some ':'
  | _ => none

/-- Some characters spell some tokens: marks, strings and natural numbers, with
blanks between them. -/
inductive Spells : List Token → List Char → Prop
  | nil : Spells [] []
  | blank {ts : List Token} {cs : List Char} {c : Char} (blank : Blank c) (rest : Spells ts cs) :
      Spells ts (c :: cs)
  | mark {t : Token} {ts : List Token} {c : Char} {cs : List Char} (mark : t.mark? = some c)
      (rest : Spells ts cs) : Spells (t :: ts) (c :: cs)
  | string {s : String} {ts : List Token} {ws cs : List Char} (written : WrittenAll s.toList ws)
      (rest : Spells ts cs) : Spells (.string (some s) :: ts) ('"' :: (ws ++ '"' :: cs))
  | nat {n : Nat} {ts : List Token} {cs : List Char} (delimited : Delimited cs)
      (rest : Spells ts cs) : Spells (.number (.ofNat n) :: ts) (Nat.toDigits 10 n ++ cs)

/-- What is spelled is read. -/
theorem Spells.scan_eq {ts : List Token} {cs : List Char} (h : Spells ts cs) (done : List Token) :
    scan { tokens := done } cs = some (done.reverse ++ ts) := by
  induction h generalizing done with
  | nil => simp [scan, Scan.finish]
  | blank hc _ ih =>
    rw [← ih done]
    cases hc <;> exact scan_step rfl _
  | @mark t ts c cs hc _ ih =>
    have hstep : (Scan.mk .between done).step c = some { tokens := t :: done } := by
      cases t <;> cases hc <;> rfl
    rw [scan_step hstep, ih, List.reverse_cons, List.append_assoc]
    rfl
  | string hs _ ih =>
    rw [scan_string hs, ih, List.reverse_cons, List.append_assoc]
    rfl
  | nat hcs _ ih =>
    rw [scan_digits, scan_counting hcs, ih, List.reverse_cons, List.append_assoc]
    rfl

theorem Spells.tokens?_eq {ts : List Token} {s : String} (h : Spells ts s.toList) :
    tokens? s = some ts := h.scan_eq []

end StateGraph.Json
