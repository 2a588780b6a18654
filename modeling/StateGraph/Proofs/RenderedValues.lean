-- Values as texts and back. A value has one list of tokens, which the reader takes
-- for that value, and which every layout spells.
import StateGraph.Json.Parse
import StateGraph.Json.Render
import StateGraph.Proofs.SpelledTokens

namespace StateGraph.Json

/-! ## The tokens of a value -/

mutual

/-- The tokens of a value, in their order. -/
def tokens : Json → List Token
  | .null => [.null]
  | .bool b => [.bool b]
  | .number n => [.number n]
  | .string s => [.string s]
  | .array [] => [.openArray, .closeArray]
  | .array (j :: js) => .openArray :: (tokens j ++ moreItems js)
  | .object [] => [.openObject, .closeObject]
  | .object ((k, j) :: fs) => .openObject :: .string k :: .colon :: (tokens j ++ moreFields fs)

/-- What is left of an array after an item. -/
def moreItems : List Json → List Token
  | [] => [.closeArray]
  | j :: js => .comma :: (tokens j ++ moreItems js)

/-- What is left of an object after a field. -/
def moreFields : List Field → List Token
  | [] => [.closeObject]
  | (k, j) :: fs => .comma :: .string k :: .colon :: (tokens j ++ moreFields fs)

end

/-- A value made of natural numbers, texts, arrays, and objects with texts as
keys. -/
inductive Plain : Json → Prop
  | nat (n : Nat) : Plain (.nat n)
  | text (s : String) : Plain (.text s)
  | array {items : List Json} (plain : ∀ j ∈ items, Plain j) : Plain (.array items)
  | object {fields : List Field} (keys : ∀ f ∈ fields, ∃ k, f.1 = some k)
      (plain : ∀ f ∈ fields, Plain f.2) : Plain (.object fields)

/-! ## Reading tokens -/

/-- What the machine makes of some tokens. -/
def readFrom (r : Reading) (ts : List Token) : Option Reading := ts.foldlM Reading.step r

theorem readFrom_cons {r r' : Reading} {t : Token} (h : r.step t = some r') (ts : List Token) :
    readFrom r (t :: ts) = readFrom r' ts := by
  rw [readFrom, List.foldlM_cons, h]
  rfl

/-- From every state in which it may come the tokens of the value are read as it. -/
def ReadAs (j : Json) : Prop :=
  ∀ frames rest, readFrom (.value frames) (tokens j ++ rest) = readFrom (.done j frames) rest

/-- A value begins with no closing bracket. -/
theorem tokens_head (j : Json) : ∃ t ts, tokens j = t :: ts ∧ t ≠ .closeArray := by
  cases j with
  | array items => cases items <;> exact ⟨_, _, rfl, by simp⟩
  | object fields => rcases fields with _ | ⟨⟨k, j⟩, fs⟩ <;> exact ⟨_, _, rfl, by simp⟩
  | _ => exact ⟨_, _, rfl, by simp⟩

/-- The first item of an array is read like any other value. -/
theorem readFrom_item (frames : List Frame) (j : Json) (rest : List Token) :
    readFrom (.item frames) (tokens j ++ rest) =
      readFrom (.value (.array [] :: frames)) (tokens j ++ rest) := by
  obtain ⟨t, ts, htokens, ht⟩ := tokens_head j
  have hstep : (Reading.item frames).step t = (Reading.value (.array [] :: frames)).step t := by
    cases t <;> first | rfl | exact absurd rfl ht
  rw [htokens, List.cons_append, readFrom, readFrom, List.foldlM_cons, List.foldlM_cons, hstep]

theorem readFrom_moreItems {js : List Json} (h : ∀ j ∈ js, ReadAs j) (j : Json) (items : List Json)
    (frames : List Frame) (rest : List Token) :
    readFrom (.done j (.array items :: frames)) (moreItems js ++ rest) =
      readFrom (.done (.array ((j :: items).reverse ++ js)) frames) rest := by
  induction js generalizing j items with
  | nil =>
    rw [moreItems, List.append_nil]
    exact readFrom_cons rfl rest
  | cons j' js ih =>
    rw [moreItems, List.cons_append, List.append_assoc, readFrom_cons rfl,
      h j' List.mem_cons_self, ih fun x hx => h x (List.mem_cons_of_mem _ hx), List.reverse_cons,
      List.append_assoc]
    rfl

theorem readFrom_moreFields {fs : List Field} (h : ∀ f ∈ fs, ReadAs f.2) (k : Option String)
    (j : Json) (fields : List Field) (frames : List Frame) (rest : List Token) :
    readFrom (.done j (.object fields k :: frames)) (moreFields fs ++ rest) =
      readFrom (.done (.object (((k, j) :: fields).reverse ++ fs)) frames) rest := by
  induction fs generalizing k j fields with
  | nil =>
    rw [moreFields, List.append_nil]
    exact readFrom_cons rfl rest
  | cons f fs ih =>
    obtain ⟨k', j'⟩ := f
    rw [moreFields, List.cons_append, List.cons_append, List.cons_append, List.append_assoc,
      readFrom_cons rfl, readFrom_cons rfl, readFrom_cons rfl, h (k', j') List.mem_cons_self,
      ih fun x hx => h x (List.mem_cons_of_mem _ hx), List.reverse_cons, List.append_assoc]
    rfl

theorem Plain.readAs {j : Json} (h : Plain j) : ReadAs j := by
  induction h with
  | nat n => exact fun frames rest => readFrom_cons rfl rest
  | text s => exact fun frames rest => readFrom_cons rfl rest
  | @array items _ ih =>
    intro frames rest
    cases items with
    | nil => exact (readFrom_cons rfl _).trans (readFrom_cons rfl rest)
    | cons j js =>
      rw [tokens, List.cons_append, List.append_assoc, readFrom_cons rfl, readFrom_item,
        ih j List.mem_cons_self, readFrom_moreItems fun x hx => ih x (List.mem_cons_of_mem _ hx)]
      rfl
  | @object fields _ _ ih =>
    intro frames rest
    cases fields with
    | nil => exact (readFrom_cons rfl _).trans (readFrom_cons rfl rest)
    | cons f fs =>
      obtain ⟨k, j⟩ := f
      rw [tokens, List.cons_append, List.cons_append, List.cons_append, List.append_assoc,
        readFrom_cons rfl, readFrom_cons rfl, readFrom_cons rfl, ih (k, j) List.mem_cons_self,
        readFrom_moreFields fun x hx => ih x (List.mem_cons_of_mem _ hx)]
      rfl

/-- A text that spells the tokens of a value is read as it. -/
theorem parse?_of_spells {j : Json} {s : String} (h : Plain j) (hs : Spells (tokens j) s.toList) :
    parse? s = some j := by
  have hread : readFrom (.value []) (tokens j) = some (.done j []) := by
    simpa [readFrom] using h.readAs [] []
  unfold readFrom at hread
  simp [parse?, hs.tokens?_eq, hread]

/-! ## Spelling tokens -/

theorem written_escape (c : Char) : Written c (escape c) := by
  have hcontrol : ∀ n < 32,
      hexNumber? 0 ['0', '0', hexDigit (n / 16), hexDigit (n % 16)] = some n := by
    decide
  unfold escape
  split
  · subst c; exact .letter rfl
  split
  · subst c; exact .letter rfl
  split
  · subst c; exact .letter rfl
  split
  · subst c; exact .letter rfl
  split
  · subst c; exact .letter rfl
  split
  · subst c; exact .letter rfl
  split
  · subst c; exact .letter rfl
  split
  · rename_i h
    have hlt : c.toNat < 32 := h
    exact .unit (hcontrol _ hlt) (Or.inl (by omega)) (Char.ofNat_toNat c)
  · exact .plain ‹_› ‹_› ‹_›

theorem writtenAll_escape (cs : List Char) : WrittenAll cs (cs.flatMap escape) := by
  induction cs with
  | nil => exact .nil
  | cons c cs ih => exact .cons (written_escape c) ih

theorem toList_quote (s : String) :
    (quote (some s)).toList = '"' :: (s.toList.flatMap escape ++ ['"']) := by
  simp [quote]

/-- A layout puts blanks between tokens, and nothing else. -/
structure Layout.Blanks (l : Layout) : Prop where
  line : ∀ n, ∀ c ∈ (l.line n).toList, Blank c
  gap : ∀ c ∈ l.gap.toList, Blank c

theorem blanks_compact : Layout.compact.Blanks where
  line := by simp [Layout.compact]
  gap := by simp [Layout.compact]

theorem blanks_indented : Layout.indented.Blanks where
  line := by
    have hpush : ∀ n : Nat, ∀ c ∈ ("".pushn ' ' n).toList, c = ' ' := by
      intro n
      induction n with
      | zero => simp [String.pushn, Nat.repeat]
      | succ n ih =>
        intro c hc
        simp only [String.pushn, Nat.repeat, String.toList_push, List.mem_append,
          List.mem_singleton] at hc
        exact hc.elim (ih c) id
    intro n c hc
    simp only [Layout.indented, String.toList_append, List.mem_append] at hc
    rcases hc with hc | hc
    · obtain rfl : c = '\n' := by simpa using hc
      exact .line
    · exact hpush _ c hc ▸ .space
  gap := by
    intro c hc
    obtain rfl : c = ' ' := by simpa [Layout.indented] using hc
    exact .space

theorem spells_blanks {bs : List Char} (hbs : ∀ c ∈ bs, Blank c) {ts : List Token} {cs : List Char}
    (h : Spells ts cs) : Spells ts (bs ++ cs) := by
  induction bs with
  | nil => exact h
  | cons b bs ih =>
    exact .blank (hbs b List.mem_cons_self) (ih fun c hc => hbs c (List.mem_cons_of_mem _ hc))

theorem endsNumber_of_blank {c : Char} (h : Blank c) : endsNumber c := by
  cases h <;> exact ⟨by decide, by decide, by decide, by decide⟩

theorem delimited_blanks {bs : List Char} (hbs : ∀ c ∈ bs, Blank c) {cs : List Char}
    (h : Delimited cs) : Delimited (bs ++ cs) := by
  cases bs with
  | nil => exact h
  | cons b bs => exact delimited_cons (endsNumber_of_blank (hbs b List.mem_cons_self)) _

/-! ## Layouts spell values -/

/-- Items between commas, each behind the same blanks. -/
def afterCommas (line : List Char) (texts : List String) : List Char :=
  texts.flatMap fun t => ',' :: (line ++ t.toList)

theorem intercalate_cons (sep : Char) (xs : List Char) (xss : List (List Char)) :
    [sep].intercalate (xs :: xss) = xs ++ xss.flatMap (sep :: ·) := by
  induction xss generalizing xs with
  | nil => simp [List.intercalate]
  | cons ys xss ih =>
    have hcons : [sep].intercalate (xs :: ys :: xss) =
        xs ++ sep :: [sep].intercalate (ys :: xss) := by
      simp [List.intercalate]
    rw [hcons, ih]
    rfl

theorem toList_bracket (l : Layout) (d : Nat) (left right t : String) (texts : List String) :
    (bracket l d left right (t :: texts)).toList =
      left.toList ++ ((l.line (d + 1)).toList ++ (t.toList ++
        (afterCommas (l.line (d + 1)).toList texts ++ ((l.line d).toList ++ right.toList)))) := by
  have hcomma : ",".toList = [','] := rfl
  simp only [bracket, String.toList_append, String.toList_intercalate, List.map_map, hcomma,
    List.map_cons, intercalate_cons, List.flatMap_map, afterCommas, List.append_assoc,
    Function.comp_apply]

theorem endsNumber_comma : endsNumber ',' := ⟨by decide, by decide, by decide, by decide⟩

theorem delimited_afterCommas {line cs : List Char} (h : Delimited cs) (texts : List String) :
    Delimited (afterCommas line texts ++ cs) := by
  cases texts with
  | nil => exact h
  | cons t texts => exact delimited_cons endsNumber_comma _

section Layout

variable {l : Layout}

/-- In a layout a value is spelled by its text, before whatever may follow. -/
def SpelledIn (l : Layout) (j : Json) : Prop :=
  ∀ d ts cs, Delimited cs → Spells ts cs → Spells (tokens j ++ ts) ((renderAt l d j).toList ++ cs)

theorem spells_quote {k : Option String} (hk : ∃ s, k = some s) {ts : List Token} {cs : List Char}
    (h : Spells ts cs) : Spells (.string k :: ts) ((quote k).toList ++ cs) := by
  obtain ⟨s, rfl⟩ := hk
  rw [toList_quote, List.cons_append, List.append_assoc]
  exact .string (writtenAll_escape _) h

/-- A field is spelled by its key, a colon and its value. -/
theorem spells_field (hl : l.Blanks) {k : Option String} {j : Json} (hk : ∃ s, k = some s)
    (hj : SpelledIn l j) (d : Nat) {ts : List Token} {cs : List Char} (hcs : Delimited cs)
    (h : Spells ts cs) : Spells (.string k :: .colon :: (tokens j ++ ts))
      ((quote k ++ ":" ++ l.gap ++ renderAt l d j).toList ++ cs) := by
  simp only [String.toList_append, List.append_assoc]
  exact spells_quote hk (.mark rfl (spells_blanks hl.gap (hj d ts cs hcs h)))

theorem spells_moreItems (hl : l.Blanks) {js : List Json} (hjs : ∀ j ∈ js, SpelledIn l j) (d : Nat)
    {ts : List Token} {cs : List Char} (hcs : Delimited cs) (h : Spells (.closeArray :: ts) cs) :
    Spells (moreItems js ++ ts) (afterCommas (l.line d).toList (renderItems l d js) ++ cs) := by
  induction js with
  | nil => exact h
  | cons j js ih =>
    have hrest := ih fun x hx => hjs x (List.mem_cons_of_mem _ hx)
    simp only [renderItems, afterCommas, List.flatMap_cons, moreItems, List.cons_append,
      List.append_assoc]
    refine .mark rfl (spells_blanks (hl.line d) (hjs j List.mem_cons_self d _ _ ?_ hrest))
    exact delimited_afterCommas hcs _

theorem spells_moreFields (hl : l.Blanks) {fs : List Field} (hkeys : ∀ f ∈ fs, ∃ k, f.1 = some k)
    (hfs : ∀ f ∈ fs, SpelledIn l f.2) (d : Nat) {ts : List Token} {cs : List Char}
    (hcs : Delimited cs) (h : Spells (.closeObject :: ts) cs) :
    Spells (moreFields fs ++ ts) (afterCommas (l.line d).toList (renderFields l d fs) ++ cs) := by
  induction fs with
  | nil => exact h
  | cons f fs ih =>
    have hrest := ih (fun x hx => hkeys x (List.mem_cons_of_mem _ hx))
      fun x hx => hfs x (List.mem_cons_of_mem _ hx)
    simp only [renderFields, afterCommas, List.flatMap_cons, moreFields, List.cons_append,
      List.append_assoc]
    refine .mark rfl (spells_blanks (hl.line d) (spells_field hl (hkeys f List.mem_cons_self)
      (hfs f List.mem_cons_self) d ?_ hrest))
    exact delimited_afterCommas hcs _

theorem endsNumber_closeArray : endsNumber ']' := ⟨by decide, by decide, by decide, by decide⟩

theorem endsNumber_closeObject : endsNumber '\x7d' := ⟨by decide, by decide, by decide, by decide⟩

theorem Plain.spelledIn (hl : l.Blanks) {j : Json} (h : Plain j) : SpelledIn l j := by
  induction h with
  | nat n =>
    intro d ts cs hcs hs
    have htext : (renderAt l d (Json.nat n)).toList = Nat.toDigits 10 n := by
      simp [Json.nat, renderAt, Numeral.chars, Numeral.ofNat]
    rw [htext]
    exact .nat hcs hs
  | text s => exact fun d ts cs _ hs => spells_quote ⟨s, rfl⟩ hs
  | @array items _ ih =>
    intro d ts cs _ hs
    cases items with
    | nil =>
      have htext : (renderAt l d (.array [])).toList = ['[', ']'] := by
        simp [renderAt, renderItems, bracket]
      rw [htext]
      exact .mark (t := .openArray) rfl (.mark (t := .closeArray) rfl hs)
    | cons j js =>
      have hclose := spells_blanks (hl.line d) (.mark (t := .closeArray) (c := ']') rfl hs)
      have hdelimited := delimited_blanks (hl.line d) (delimited_cons endsNumber_closeArray cs)
      simp only [renderAt, renderItems, toList_bracket, tokens, List.cons_append,
        List.append_assoc]
      refine .mark rfl (spells_blanks (hl.line _) (ih j List.mem_cons_self _ _ _ ?_
        (spells_moreItems hl (fun x hx => ih x (List.mem_cons_of_mem _ hx)) _ hdelimited hclose)))
      exact delimited_afterCommas hdelimited _
  | @object fields hkeys _ ih =>
    intro d ts cs _ hs
    cases fields with
    | nil =>
      have htext : (renderAt l d (.object [])).toList = ['\x7b', '\x7d'] := by
        simp [renderAt, renderFields, bracket]
      rw [htext]
      exact .mark (t := .openObject) rfl (.mark (t := .closeObject) rfl hs)
    | cons f fs =>
      have hclose := spells_blanks (hl.line d) (.mark (t := .closeObject) (c := '\x7d') rfl hs)
      have hdelimited := delimited_blanks (hl.line d) (delimited_cons endsNumber_closeObject cs)
      have hmore := spells_moreFields hl (fun x hx => hkeys x (List.mem_cons_of_mem _ hx))
        (fun x hx => ih x (List.mem_cons_of_mem _ hx)) (d + 1) hdelimited hclose
      simp only [renderAt, renderFields, toList_bracket, tokens, List.cons_append,
        List.append_assoc]
      refine .mark rfl (spells_blanks (hl.line _) (spells_field hl (hkeys f List.mem_cons_self)
        (ih f List.mem_cons_self) _ ?_ hmore))
      exact delimited_afterCommas hdelimited _

/-- A value is read from its text in every layout. -/
theorem parse?_render (hl : l.Blanks) {j : Json} (h : Plain j) : parse? (j.render l) = some j := by
  refine parse?_of_spells h ?_
  have hs := h.spelledIn hl 0 [] [] (by rintro c rest ⟨⟩) .nil
  rwa [List.append_nil, List.append_nil] at hs

end Layout

end StateGraph.Json
