/-
  PhaseCert.Proofs.Json.Reader — JSON texts, read as trees.

  The reader takes JSON as the standard has it and knows nothing of the writer. It passes over
  white space between tokens. A number without a fraction and an exponent is an integer, if it
  is one of 64 bits; any other number is the double nearest to it and has to be finite.

  Both forms of a written tree are read as that tree (`read?_write`), so a text determines the
  tree that it was written from.
-/
import PhaseCert.Json.Writer
import PhaseCert.Proofs.Flow
import PhaseCert.Text.Hex

namespace PhaseCert.Json

/-! ## The reader -/

def isBlank (c : Char) : Bool := c = ' ' || c = '\n' || c = '\r' || c = '\t'

/-- The text without white space in front. -/
def skip (cs : List Char) : List Char := cs.dropWhile isBlank

/-- The number of four hexadecimal digits. -/
def code? : List Char → Option (Nat × List Char)
  | a :: b :: c :: d :: cs => (hexNumber? [a, b, c, d]).map (·, cs)
  | _ => none

/-- The character of an escape, after its backslash. One that takes two codes is written as
    two escapes. -/
def escape? : List Char → Option (Char × List Char)
  | '"' :: cs => some ('"', cs)
  | '\\' :: cs => some ('\\', cs)
  | '/' :: cs => some ('/', cs)
  | 'b' :: cs => some ('\x08', cs)
  | 'f' :: cs => some ('\x0c', cs)
  | 'n' :: cs => some ('\n', cs)
  | 'r' :: cs => some ('\r', cs)
  | 't' :: cs => some ('\t', cs)
  | 'u' :: cs => do
    let (n, cs) ← code? cs
    match charOfCode? n, cs with
    | some c, cs => some (c, cs)
    | none, '\\' :: 'u' :: cs =>
      let (m, cs) ← code? cs
      if n < 0xDC00 ∧ 0xDC00 ≤ m ∧ m < 0xE000 then
        (charOfCode? (0x10000 + (n - 0xD800) * 0x400 + (m - 0xDC00))).map (·, cs)
      else none
    | none, _ => none
  | _ => none

/-- The characters up to the quote that ends a text. -/
def chars? : (fuel : Nat) → List Char → Option (List Char × List Char)
  | 0, _ => none
  | _ + 1, [] => none
  | fuel + 1, c :: cs =>
    if c = '"' then some ([], cs)
    else if c = '\\' then do
      let (c, cs) ← escape? cs
      (chars? fuel cs).map fun r => (c :: r.1, r.2)
    else if c.toNat < 0x20 then none
    else (chars? fuel cs).map fun r => (c :: r.1, r.2)

/-- The text after a quote. -/
def text? (cs : List Char) : Option (String × List Char) :=
  (chars? (cs.length + 1) cs).map fun r => (String.ofList r.1, r.2)

def isNumberChar (c : Char) : Bool := c.isDigit || ['+', '-', '.', 'e', 'E'].contains c

/-- A double as a tree; none that is not finite. -/
def real? (x : Binary64) : Option Tree := x.finite?.map .float

/-- The number that a numeral spells. It needs digits in front, without an idle zero, and
    digits after a point. -/
def number? (numeral : List Char) : Option Tree :=
  let (negative, body) := match numeral with
    | '-' :: cs => (true, cs)
    | _ => (false, numeral)
  let (whole, rest) := Numeral.digits body
  let proper : Bool := whole = ['0'] || whole.head?.any (· ≠ '0')
  let hanging : Bool := rest.head? = some '.' && !rest.tail.head?.any Char.isDigit
  if !proper || hanging then none
  else
    match Numeral.decimal? body with
    | none => none
    | some d =>
      let n : Int := Numeral.natOfDigits whole
      match Whole.ofInt? (if negative then -n else n) with
      | some n => if rest = [] then some (.int n) else real? (d.toBinary64 negative)
      | none => real? (d.toBinary64 negative)

/-- Values with commas between them, up to the bracket that ends them. -/
def items? (value : List Char → Option (Tree × List Char)) : (fuel : Nat) → List Char → Option (List Tree × List Char)
  | 0, _ => none
  | fuel + 1, cs =>
    match value cs with
    | none => none
    | some (t, cs) =>
      match skip cs with
      | ',' :: cs => (items? value fuel (skip cs)).map fun r => (t :: r.1, r.2)
      | ']' :: cs => some ([t], cs)
      | _ => none

/-- A key and its value. -/
def pair? (value : List Char → Option (Tree × List Char)) : List Char → Option ((String × Tree) × List Char)
  | '"' :: cs =>
    match text? cs with
    | none => none
    | some (k, cs) =>
      match skip cs with
      | ':' :: cs => (value (skip cs)).map fun r => ((k, r.1), r.2)
      | _ => none
  | _ => none

/-- Entries with commas between them, up to the brace that ends them. -/
def entries? (value : List Char → Option (Tree × List Char)) :
    (fuel : Nat) → List Char → Option (List (String × Tree) × List Char)
  | 0, _ => none
  | fuel + 1, cs =>
    match pair? value cs with
    | none => none
    | some (e, cs) =>
      match skip cs with
      | ',' :: cs => (entries? value fuel (skip cs)).map fun r => (e :: r.1, r.2)
      | '\x7d' :: cs => some ([e], cs)
      | _ => none

/-- A value of at most so many levels, without white space in front, and what is after it. -/
def value? : (levels : Nat) → List Char → Option (Tree × List Char)
  | 0, _ => none
  | levels + 1, cs =>
    match cs with
    | 'n' :: 'u' :: 'l' :: 'l' :: cs => some (.null, cs)
    | 't' :: 'r' :: 'u' :: 'e' :: cs => some (.bool true, cs)
    | 'f' :: 'a' :: 'l' :: 's' :: 'e' :: cs => some (.bool false, cs)
    | '"' :: cs => (text? cs).map fun r => (.text r.1, r.2)
    | '[' :: cs =>
      match skip cs with
      | ']' :: cs => some (.seq [], cs)
      | first => (items? (value? levels) cs.length first).map fun r => (.seq r.1, r.2)
    | '\x7b' :: cs =>
      match skip cs with
      | '\x7d' :: cs => some (.map [], cs)
      | first => (entries? (value? levels) cs.length first).map fun r => (.map r.1, r.2)
    | cs => (number? (cs.takeWhile isNumberChar)).map fun t => (t, cs.dropWhile isNumberChar)

/-- The tree of a text. -/
def read? (s : String) : Option Tree :=
  match value? s.toList.length (skip s.toList) with
  | some (t, rest) => if skip rest = [] then some t else none
  | none => none

/-! ## White space -/

theorem skip_blanks {bs : List Char} (hb : ∀ c ∈ bs, isBlank c = true) {c : Char} (hc : isBlank c = false) (cs : List Char) :
    skip (bs ++ c :: cs) = c :: cs := by
  rw [skip, List.dropWhile_append_of_pos hb, List.dropWhile_cons, if_neg (by rw [hc]; exact Bool.false_ne_true)]

theorem isBlank_lineBreak (d : Depth) : ∀ c ∈ lineBreak d, isBlank c = true := by
  cases d with
  | none => exact nofun
  | some d =>
    intro c hc
    rcases List.mem_cons.1 hc with rfl | hc
    · rfl
    · rw [List.eq_of_mem_replicate hc]
      rfl

/-! ## Texts -/

theorem hexNumber?_code : ∀ n < 0x20, hexNumber? (hexDigits4 n) = some n ∧ (hexDigits4 n).length = 4 := by decide

theorem code?_append {ds : List Char} (hl : ds.length = 4) (cs : List Char) :
    code? (ds ++ cs) = (hexNumber? ds).map (·, cs) := by
  match ds, hl with
  | [a, b, c, d], _ => rfl

/-- An escaped character is read as itself. -/
theorem chars?_escapedChar (c : Char) (fuel : Nat) (cs : List Char) :
    chars? (fuel + 1) (escapedChar c ++ cs) = (chars? fuel cs).map fun r => (c :: r.1, r.2) := by
  unfold escapedChar
  split
  · rfl
  · rfl
  · rfl
  · rfl
  · rfl
  · rfl
  · rfl
  · rename_i hquote hslash _ _ _ _ _
    by_cases hc : c.toNat < 0x20
    · obtain ⟨hn, hl⟩ := hexNumber?_code c.toNat hc
      have hvalid : c.toNat.isValidChar := c.valid
      have hchar : charOfCode? c.toNat = some c := by
        rw [charOfCode?, dif_pos hvalid]
        rfl
      rw [if_pos hc, List.cons_append, List.cons_append, chars?, if_neg (by decide), if_pos rfl]
      simp only [escape?, code?_append hl, hn, Option.map_some, Option.bind_eq_bind, Option.bind_some, hchar]
    · rw [if_neg hc, List.singleton_append, chars?, if_neg hquote, if_neg hslash, if_neg hc]

theorem chars?_escaped (s : List Char) (fuel : Nat) (hf : s.length < fuel) (rest : List Char) :
    chars? fuel (s.flatMap escapedChar ++ '"' :: rest) = some (s, rest) := by
  induction s generalizing fuel with
  | nil =>
    obtain ⟨fuel, rfl⟩ : ∃ n, fuel = n + 1 := ⟨fuel - 1, by simp at hf; omega⟩
    rfl
  | cons c s ih =>
    rw [List.length_cons] at hf
    obtain ⟨fuel, rfl⟩ : ∃ n, fuel = n + 1 := ⟨fuel - 1, by omega⟩
    rw [List.flatMap_cons, List.append_assoc, chars?_escapedChar, ih fuel (by omega)]
    rfl

theorem escapedChar_ne_nil (c : Char) : escapedChar c ≠ [] := by
  unfold escapedChar
  split <;> first | exact List.cons_ne_nil _ _ | (split <;> exact List.cons_ne_nil _ _)

theorem length_escaped (s : List Char) : s.length ≤ (s.flatMap escapedChar).length := by
  induction s with
  | nil => exact Nat.le_refl _
  | cons c s ih =>
    have := List.length_pos_iff.2 (escapedChar_ne_nil c)
    rw [List.flatMap_cons, List.length_append, List.length_cons]
    omega

/-- A quoted text is read as the text. -/
theorem text?_quotedText (s : String) (rest : List Char) :
    ∃ cs, quotedText s ++ rest = '"' :: cs ∧ text? cs = some (s, rest) := by
  refine ⟨s.toList.flatMap escapedChar ++ '"' :: rest, ?_, ?_⟩
  · rw [quotedText, List.cons_append, List.append_assoc]
    rfl
  · have hlen := length_escaped s.toList
    rw [text?, chars?_escaped s.toList _ (by rw [List.length_append]; omega), Option.map_some, String.ofList_toList]

/-! ## Numbers -/

open Numeral

/-- No character of a number comes next. -/
def EndsNumber (rest : List Char) : Prop := ∀ c ∈ rest.head?, isNumberChar c = false

theorem takeWhile_number {cs rest : List Char} (hc : ∀ c ∈ cs, isNumberChar c = true) (hr : EndsNumber rest) :
    (cs ++ rest).takeWhile isNumberChar = cs ∧ (cs ++ rest).dropWhile isNumberChar = rest := by
  rw [List.takeWhile_append_of_pos hc, List.dropWhile_append_of_pos hc]
  cases rest with
  | nil => exact ⟨List.append_nil cs, rfl⟩
  | cons c rest =>
    have h : ¬isNumberChar c = true := by
      rw [hr c rfl]
      exact Bool.false_ne_true
    rw [List.takeWhile_cons, List.dropWhile_cons, if_neg h, if_neg h]
    exact ⟨List.append_nil cs, rfl⟩

theorem isNumberChar_of_digit {c : Char} (h : c.isDigit = true) : isNumberChar c = true := by
  rw [isNumberChar, h, Bool.true_or]

theorem isBlank_of_isNumberChar {c : Char} (h : isNumberChar c = true) : isBlank c = false := by
  rw [Bool.eq_false_iff]
  intro hb
  simp only [isBlank, Bool.or_eq_true, decide_eq_true_eq] at hb
  rcases hb with ((rfl | rfl) | rfl) | rfl <;> exact absurd h (by decide)

theorem proper_of_wholeText {whole : List Char} (hw : WholeText whole) :
    (decide (whole = ['0']) || whole.head?.any (· ≠ '0')) = true := by
  rcases hw.proper with h | ⟨c, rest, h, hc⟩
  · rw [decide_eq_true h, Bool.true_or]
  · rw [h, List.head?_cons, Option.any_some, decide_eq_true hc, Bool.or_true]

theorem body_minus {whole : List Char} (hw : WholeText whole) (negative : Bool) (tail : List Char) :
    (match minus negative ++ (whole ++ tail) with
      | '-' :: cs => (true, cs)
      | _ => (false, minus negative ++ (whole ++ tail))) = (negative, whole ++ tail) := by
  cases negative with
  | true => rfl
  | false =>
    obtain ⟨c, cs, hc⟩ := List.exists_cons_of_ne_nil hw.ne_nil
    have hd := hw.digits c (by rw [hc]; exact List.mem_cons_self)
    have hne : c ≠ '-' := by
      rintro rfl
      exact absurd hd (by decide)
    rw [hc]
    show (match c :: (cs ++ tail) with
      | '-' :: cs => (true, cs)
      | _ => (false, c :: (cs ++ tail))) = _
    split
    · rename_i h
      exact absurd (List.cons.inj h).1 hne
    · rfl

theorem number?_int {whole : List Char} (hw : WholeText whole) (negative : Bool) {n : Whole}
    (hn : n.val = if negative then -(natOfDigits whole : Int) else natOfDigits whole) :
    number? (minus negative ++ whole) = some (.int n) := by
  have hbody := body_minus hw negative []
  rw [List.append_nil] at hbody
  have hdigits : digits whole = (whole, []) := by
    have h := digits_append hw.digits (show NoDigitFirst [] from nofun)
    rwa [List.append_nil] at h
  have hdecimal : decimal? whole = some ⟨natOfDigits whole, 0⟩ := by
    have h := decimal?_of_parts hw.digits (show AllDigits [] from nofun) (.inl hw.ne_nil) (.inr ⟨rfl, rfl⟩) .none
    simpa using h
  have hofInt : Whole.ofInt? (if negative then -(natOfDigits whole : Int) else natOfDigits whole) = some n := by
    rw [← hn]
    exact dif_pos n.property
  simp only [number?, hbody, hdigits, hdecimal, hofInt, proper_of_wholeText hw]
  rfl

theorem number?_float {cs : List Char} {d : Decimal} (h : FloatText cs d) {negative : Bool} {x : Finite64}
    (hx : d.toBinary64 negative = x.val) : number? (minus negative ++ cs) = some (.float x) := by
  have hreal : real? (d.toBinary64 negative) = some (.float x) := by
    rw [hx, real?, Binary64.finite?, dif_pos x.property]
    rfl
  obtain ⟨hw, hp, hpoint, he, hne⟩ := h
  rename_i whole point part e k
  have hpoint' : point = ['.'] ∨ point = [] ∧ part = [] := by
    rcases hpoint with ⟨h, -⟩ | h
    · exact .inl h
    · exact .inr h
  have hbody := body_minus hw negative (point ++ (part ++ e))
  have hmark : ∀ c ∈ e.head?, c.isDigit = false ∧ c ≠ '.' := by
    intro c hc
    rcases exponentText_head he c hc with rfl | rfl <;> decide
  have hrest : NoDigitFirst (point ++ (part ++ e)) := by
    rcases hpoint' with rfl | ⟨rfl, rfl⟩
    · exact noDigitFirst_cons rfl
    · exact fun c hc => (hmark c hc).1
  have hnil : ¬point ++ (part ++ e) = [] := by
    rw [List.append_eq_nil_iff, List.append_eq_nil_iff]
    rintro ⟨h1, -, h2⟩
    rcases hne with h | h
    · exact h h1
    · exact h h2
  have hhanging : (decide ((point ++ (part ++ e)).head? = some '.') &&
      !(point ++ (part ++ e)).tail.head?.any Char.isDigit) = false := by
    rcases hpoint with ⟨rfl, hpart⟩ | ⟨rfl, rfl⟩
    · obtain ⟨c, part', hc⟩ := List.exists_cons_of_ne_nil hpart
      have hd := hp c (by rw [hc]; exact List.mem_cons_self)
      simp [hc, hd]
    · have hfirst : e.head? ≠ some '.' := fun hf => (hmark '.' hf).2 rfl
      simp [hfirst]
  have hdigits := digits_append hw.digits hrest
  have hdecimal := decimal?_of_parts hw.digits hp (.inl hw.ne_nil) hpoint' he
  simp only [number?, hbody, hdigits, hdecimal, proper_of_wholeText hw, hhanging, hreal, hnil]
  cases Whole.ofInt? _ <;> rfl

theorem isNumberChar_minus (negative : Bool) : ∀ c ∈ minus negative, isNumberChar c = true := by
  cases negative <;> decide

/-- An integer is written in characters of numbers and read as itself. -/
theorem number?_intText (n : Whole) : number? (intText n.val) = some (.int n) ∧ ∀ c ∈ intText n.val, isNumberChar c = true := by
  have hw := wholeText_toString n.val.natAbs
  rw [intText_eq]
  constructor
  · refine number?_int hw _ ?_
    rw [natOfDigits_toString]
    by_cases hneg : n.val < 0
    · rw [if_pos (decide_eq_true hneg)]
      omega
    · rw [if_neg (by simpa using hneg)]
      omega
  · intro c hc
    rcases List.mem_append.1 hc with hc | hc
    · exact isNumberChar_minus _ c hc
    · exact isNumberChar_of_digit (hw.digits c hc)

/-- A double is written in characters of numbers and read as itself. -/
theorem number?_floatText (x : Finite64) :
    number? (floatText x.val) = some (.float x) ∧ ∀ c ∈ floatText x.val, isNumberChar c = true := by
  obtain ⟨x, hx⟩ := x
  cases x with
  | nan => cases hx
  | infinite s => cases hx
  | finite s r =>
    obtain ⟨cs, d, he, htext, hd⟩ := floatText_eq s r
    rw [he]
    constructor
    · exact number?_float htext (x := ⟨.finite s r, hx⟩) hd
    · intro c hc
      rcases decimalText_chars (htext.decimalText (signText_minus s)) c hc with h | h
      · exact isNumberChar_of_digit h
      · rw [isNumberChar, Bool.or_eq_true, List.contains_iff_mem]
        exact .inr h

/-! ## Values -/

theorem value?_number {cs rest : List Char} {t : Tree} {levels : Nat} (hn : number? cs = some t)
    (hc : ∀ c ∈ cs, isNumberChar c = true) (hr : EndsNumber rest) :
    value? (levels + 1) (cs ++ rest) = some (t, rest) := by
  obtain ⟨htake, hdrop⟩ := takeWhile_number hc hr
  have hne : cs ≠ [] := by
    rintro rfl
    cases hn
  obtain ⟨c, cs', hcs⟩ := List.exists_cons_of_ne_nil hne
  have hfirst := hc c (by rw [hcs]; exact List.mem_cons_self)
  rw [hcs, List.cons_append] at htake hdrop ⊢
  rw [hcs] at hn
  unfold value?
  split
  case h_7 => rw [htake, hdrop, hn, Option.map_some]
  all_goals
    rename_i h
    rw [(List.cons.inj h).1] at hfirst
    exact absurd hfirst (by decide)

/-- A value begins with a character that is neither white space nor ends a container. -/
theorem write_head (d : Depth) (t : Tree) :
    ∃ c cs, write d t = c :: cs ∧ isBlank c = false ∧ c ≠ ']' ∧ c ≠ '\x7d' := by
  have hnumber : ∀ {cs : List Char} {t : Tree}, number? cs = some t → (∀ c ∈ cs, isNumberChar c = true) →
      ∃ c cs', cs = c :: cs' ∧ isBlank c = false ∧ c ≠ ']' ∧ c ≠ '\x7d' := by
    intro cs t hn hc
    have hne : cs ≠ [] := by
      rintro rfl
      cases hn
    obtain ⟨c, cs', rfl⟩ := List.exists_cons_of_ne_nil hne
    have hfirst := hc c List.mem_cons_self
    refine ⟨c, cs', rfl, isBlank_of_isNumberChar hfirst, ?_, ?_⟩
    · rintro rfl
      exact absurd hfirst (by decide)
    · rintro rfl
      exact absurd hfirst (by decide)
  cases t with
  | null => exact ⟨'n', _, by rw [write], by decide⟩
  | bool b => cases b <;> exact ⟨_, _, by rw [write], by decide⟩
  | int n =>
    rw [write]
    exact hnumber (number?_intText n).1 (number?_intText n).2
  | float x =>
    rw [write]
    exact hnumber (number?_floatText x).1 (number?_floatText x).2
  | text s => exact ⟨'"', _, by rw [write, quotedText], by decide⟩
  | seq items => cases items <;> exact ⟨'[', _, by rw [write], by decide⟩
  | map entries => cases entries <;> exact ⟨'\x7b', _, by rw [write], by decide⟩

/-- What follows a value in its container. -/
theorem endsNumber_lineBreak (d : Depth) {c : Char} (hc : isNumberChar c = false) (rest : List Char) :
    EndsNumber (lineBreak d ++ c :: rest) := by
  intro c' h'
  cases d with
  | none =>
    cases h'
    exact hc
  | some d =>
    cases h'
    rfl

theorem skip_of_head {c : Char} (hc : isBlank c = false) (cs : List Char) : skip (c :: cs) = c :: cs :=
  skip_blanks (List.forall_mem_nil _) hc cs

/-- A value is the first thing on its line. -/
theorem skip_write (d' d : Depth) (t : Tree) (after : List Char) :
    skip (lineBreak d' ++ (write d t ++ after)) = write d t ++ after := by
  obtain ⟨c, cs, hw, hc, -⟩ := write_head d t
  rw [hw, List.cons_append, skip_blanks (isBlank_lineBreak d') hc]

theorem writeItems_more (d : Depth) (t t' : Tree) (ts : List Tree) :
    writeItems d (t :: t' :: ts) = lineBreak d ++ (write d t ++ ',' :: writeItems d (t' :: ts)) := by
  rw [writeItems, List.append_assoc]
  exact List.cons_ne_nil t' ts

theorem writeEntries_more (d : Depth) (k : String) (t : Tree) (e : String × Tree) (es : List (String × Tree)) :
    writeEntries d ((k, t) :: e :: es) =
      lineBreak d ++ (quotedText k ++ (colon d ++ (write d t ++ ',' :: writeEntries d (e :: es)))) := by
  rw [writeEntries]
  · simp only [List.append_assoc]
  · exact List.cons_ne_nil e es

theorem length_writeItems (d : Depth) (ts : List Tree) : ts.length ≤ (writeItems d ts).length := by
  induction ts with
  | nil => exact Nat.zero_le _
  | cons t ts ih =>
    obtain ⟨c, cs, hw, -⟩ := write_head d t
    cases ts with
    | nil =>
      rw [writeItems, List.length_append, hw, List.length_cons, List.length_cons, List.length_nil]
      omega
    | cons t' ts =>
      rw [writeItems_more]
      simp only [List.length_append, List.length_cons] at ih ⊢
      omega

theorem length_writeEntries (d : Depth) (es : List (String × Tree)) : es.length ≤ (writeEntries d es).length := by
  induction es with
  | nil => exact Nat.zero_le _
  | cons e es ih =>
    obtain ⟨k, t⟩ := e
    cases es with
    | nil =>
      simp only [writeEntries, quotedText, List.length_append, List.length_cons, List.length_nil]
      omega
    | cons e' es =>
      rw [writeEntries_more]
      simp only [List.length_append, List.length_cons] at ih ⊢
      omega

/-- One item, and the comma or the bracket after it. -/
theorem items?_next {value : List Char → Option (Tree × List Char)} {cs after : List Char} {t : Tree}
    (h : value cs = some (t, after)) (fuel : Nat) :
    (∀ rest, skip after = ']' :: rest → items? value (fuel + 1) cs = some ([t], rest)) ∧
      ∀ rest, skip after = ',' :: rest →
        items? value (fuel + 1) cs = (items? value fuel (skip rest)).map fun r => (t :: r.1, r.2) := by
  constructor
  · intro rest hs
    simp only [items?, h, hs]
  · intro rest hs
    simp only [items?, h, hs]

/-- One entry, and the comma or the brace after it. -/
theorem entries?_next {value : List Char → Option (Tree × List Char)} {cs after : List Char} {e : String × Tree}
    (h : pair? value cs = some (e, after)) (fuel : Nat) :
    (∀ rest, skip after = '\x7d' :: rest → entries? value (fuel + 1) cs = some ([e], rest)) ∧
      ∀ rest, skip after = ',' :: rest →
        entries? value (fuel + 1) cs = (entries? value fuel (skip rest)).map fun r => (e :: r.1, r.2) := by
  constructor
  · intro rest hs
    simp only [entries?, h, hs]
  · intro rest hs
    simp only [entries?, h, hs]

/-- A key, a colon and a value that is read. -/
theorem pair?_write {value : List Char → Option (Tree × List Char)} {d : Depth} {t : Tree} {after : List Char}
    (h : value (write d t ++ after) = some (t, after)) (k : String) :
    pair? value (quotedText k ++ (colon d ++ (write d t ++ after))) = some ((k, t), after) := by
  obtain ⟨cs, hcs, hread⟩ := text?_quotedText k (colon d ++ (write d t ++ after))
  have hcolon : ∃ bs, colon d ++ (write d t ++ after) = ':' :: (bs ++ (write d t ++ after)) ∧
      ∀ c ∈ bs, isBlank c = true := by
    cases d with
    | none => exact ⟨[], rfl, nofun⟩
    | some d => exact ⟨[' '], rfl, by decide⟩
  obtain ⟨bs, hbs, hblank⟩ := hcolon
  obtain ⟨c, cs', hw, hc, -⟩ := write_head d t
  have hvalue : skip (bs ++ (write d t ++ after)) = write d t ++ after := by
    rw [hw, List.cons_append, skip_blanks hblank hc]
  have hskip : skip (colon d ++ (write d t ++ after)) = ':' :: (bs ++ (write d t ++ after)) := by
    rw [hbs, skip_of_head (by decide)]
  rw [hcs]
  simp only [pair?, hread, hskip, hvalue, h, Option.map_some]

mutual

/-- A written tree is read as that tree, whatever comes after it, if it does not go on like a
    number. -/
theorem value?_write : (t : Tree) → ∀ (d : Depth) (levels : Nat) (rest : List Char), (write d t).length ≤ levels →
    EndsNumber rest → value? levels (write d t ++ rest) = some (t, rest)
  | .null, d, levels, rest, hl, _ => by
    obtain ⟨levels, rfl⟩ : ∃ n, levels = n + 1 := ⟨levels - 1, by simp [write] at hl; omega⟩
    rw [write]
    rfl
  | .bool b, d, levels, rest, hl, _ => by
    obtain ⟨levels, rfl⟩ : ∃ n, levels = n + 1 := ⟨levels - 1, by cases b <;> simp [write] at hl <;> omega⟩
    cases b <;> rw [write] <;> rfl
  | .int n, d, levels, rest, hl, hr => by
    obtain ⟨c, cs, hc, -⟩ := write_head d (.int n)
    obtain ⟨levels, rfl⟩ : ∃ n, levels = n + 1 := ⟨levels - 1, by rw [hc, List.length_cons] at hl; omega⟩
    rw [write]
    exact value?_number (number?_intText n).1 (number?_intText n).2 hr
  | .float x, d, levels, rest, hl, hr => by
    obtain ⟨c, cs, hc, -⟩ := write_head d (.float x)
    obtain ⟨levels, rfl⟩ : ∃ n, levels = n + 1 := ⟨levels - 1, by rw [hc, List.length_cons] at hl; omega⟩
    rw [write]
    exact value?_number (number?_floatText x).1 (number?_floatText x).2 hr
  | .text s, d, levels, rest, hl, _ => by
    obtain ⟨levels, rfl⟩ : ∃ n, levels = n + 1 := ⟨levels - 1, by simp [write, quotedText] at hl; omega⟩
    obtain ⟨cs, hcs, hread⟩ := text?_quotedText s rest
    rw [write, hcs]
    show (text? cs).map _ = _
    rw [hread, Option.map_some]
  | .seq [], d, levels, rest, hl, _ => by
    obtain ⟨levels, rfl⟩ : ∃ n, levels = n + 1 := ⟨levels - 1, by simp [write] at hl; omega⟩
    rw [write]
    rfl
  | .seq (t :: ts), d, levels, rest, hl, _ => by
    rw [write, List.length_cons, List.length_append, List.length_append] at hl
    obtain ⟨levels, rfl⟩ : ∃ n, levels = n + 1 := ⟨levels - 1, by omega⟩
    have hlen := length_writeItems d.deeper (t :: ts)
    obtain ⟨c, cs, hfirst, hc⟩ : ∃ c cs, skip (writeItems d.deeper (t :: ts) ++ (lineBreak d ++ ']' :: rest)) = c :: cs ∧
        c ≠ ']' := by
      obtain ⟨after, ha⟩ : ∃ after, writeItems d.deeper (t :: ts) = lineBreak d.deeper ++ (write d.deeper t ++ after) := by
        cases ts with
        | nil => exact ⟨[], by rw [writeItems, List.append_nil]⟩
        | cons t' ts => exact ⟨_, writeItems_more _ _ _ _⟩
      obtain ⟨c, cs, hw, -, hc, -⟩ := write_head d.deeper t
      refine ⟨c, cs ++ (after ++ (lineBreak d ++ ']' :: rest)), ?_, hc⟩
      rw [ha, List.append_assoc, List.append_assoc, skip_write, hw]
      rfl
    have hitems := items?_write (t :: ts) (List.cons_ne_nil t ts) d.deeper levels (by omega) d
      (writeItems d.deeper (t :: ts) ++ (lineBreak d ++ ']' :: rest)).length rest (by rw [List.length_append]; omega)
    rw [write, List.cons_append, List.append_assoc, List.append_assoc, List.singleton_append]
    rw [hfirst] at hitems
    simp only [value?, hfirst]
    split
    · rename_i h
      exact absurd (List.cons.inj h).1 hc
    · rw [hitems, Option.map_some]
  | .map [], d, levels, rest, hl, _ => by
    obtain ⟨levels, rfl⟩ : ∃ n, levels = n + 1 := ⟨levels - 1, by simp [write] at hl; omega⟩
    rw [write]
    rfl
  | .map (e :: es), d, levels, rest, hl, _ => by
    rw [write, List.length_cons, List.length_append, List.length_append] at hl
    obtain ⟨levels, rfl⟩ : ∃ n, levels = n + 1 := ⟨levels - 1, by omega⟩
    have hlen := length_writeEntries d.deeper (e :: es)
    obtain ⟨cs, hfirst⟩ : ∃ cs, skip (writeEntries d.deeper (e :: es) ++ (lineBreak d ++ '\x7d' :: rest)) = '"' :: cs := by
      obtain ⟨after, ha⟩ : ∃ after, writeEntries d.deeper (e :: es) = lineBreak d.deeper ++ '"' :: after := by
        obtain ⟨k, t⟩ := e
        cases es with
        | nil => exact ⟨_, by simp only [writeEntries, quotedText, List.append_assoc, List.cons_append]; rfl⟩
        | cons e' es => exact ⟨_, by rw [writeEntries_more]; simp only [quotedText, List.cons_append]; rfl⟩
      refine ⟨after ++ (lineBreak d ++ '\x7d' :: rest), ?_⟩
      rw [ha, List.append_assoc, List.cons_append, skip_blanks (isBlank_lineBreak _) (by decide)]
    have hentries := entries?_write (e :: es) (List.cons_ne_nil e es) d.deeper levels (by omega) d
      (writeEntries d.deeper (e :: es) ++ (lineBreak d ++ '\x7d' :: rest)).length rest (by rw [List.length_append]; omega)
    rw [write, List.cons_append, List.append_assoc, List.append_assoc, List.singleton_append]
    rw [hfirst] at hentries
    simp only [value?, hfirst]
    show (entries? _ _ ('"' :: cs)).map _ = _
    rw [hentries, Option.map_some]

/-- Written items are read as those items. -/
theorem items?_write : (ts : List Tree) → ts ≠ [] → ∀ (d : Depth) (levels : Nat), (writeItems d ts).length ≤ levels →
    ∀ (d' : Depth) (fuel : Nat) (rest : List Char), ts.length ≤ fuel →
      items? (value? levels) fuel (skip (writeItems d ts ++ (lineBreak d' ++ ']' :: rest))) = some (ts, rest)
  | [], hne, d, levels, hl, d', fuel, rest, hf => absurd rfl hne
  | [t], hne, d, levels, hl, d', fuel, rest, hf => by
    obtain ⟨fuel, rfl⟩ : ∃ n, fuel = n + 1 := ⟨fuel - 1, by simp at hf; omega⟩
    rw [writeItems, List.length_append] at hl
    have hvalue := value?_write t d levels (lineBreak d' ++ ']' :: rest) (by omega) (endsNumber_lineBreak d' (by decide) rest)
    rw [writeItems, List.append_assoc, skip_write]
    exact (items?_next hvalue fuel).1 rest (skip_blanks (isBlank_lineBreak d') (by decide) rest)
  | t :: t' :: ts, hne, d, levels, hl, d', fuel, rest, hf => by
    rw [List.length_cons] at hf
    obtain ⟨fuel, rfl⟩ : ∃ n, fuel = n + 1 := ⟨fuel - 1, by omega⟩
    rw [writeItems_more, List.length_append, List.length_append, List.length_cons] at hl
    have hrest := items?_write (t' :: ts) (List.cons_ne_nil t' ts) d levels (by omega) d' fuel rest (by omega)
    have hvalue := value?_write t d levels (',' :: (writeItems d (t' :: ts) ++ (lineBreak d' ++ ']' :: rest))) (by omega)
      (endsNumber_lineBreak none (by decide) _)
    rw [writeItems_more, List.append_assoc, List.append_assoc, List.cons_append, skip_write,
      (items?_next hvalue fuel).2 _ (skip_of_head (by decide) _), hrest, Option.map_some]

/-- Written entries are read as those entries. -/
theorem entries?_write : (es : List (String × Tree)) → es ≠ [] → ∀ (d : Depth) (levels : Nat),
    (writeEntries d es).length ≤ levels → ∀ (d' : Depth) (fuel : Nat) (rest : List Char), es.length ≤ fuel →
      entries? (value? levels) fuel (skip (writeEntries d es ++ (lineBreak d' ++ '\x7d' :: rest))) = some (es, rest)
  | [], hne, d, levels, hl, d', fuel, rest, hf => absurd rfl hne
  | [(k, t)], hne, d, levels, hl, d', fuel, rest, hf => by
    obtain ⟨fuel, rfl⟩ : ∃ n, fuel = n + 1 := ⟨fuel - 1, by simp at hf; omega⟩
    simp only [writeEntries, List.length_append] at hl
    have hvalue := value?_write t d levels (lineBreak d' ++ '\x7d' :: rest) (by omega)
      (endsNumber_lineBreak d' (by decide) rest)
    have hskip : skip (writeEntries d [(k, t)] ++ (lineBreak d' ++ '\x7d' :: rest)) =
        quotedText k ++ (colon d ++ (write d t ++ (lineBreak d' ++ '\x7d' :: rest))) := by
      simp only [writeEntries, List.append_assoc]
      exact skip_blanks (isBlank_lineBreak d) (by decide) _
    rw [hskip]
    exact (entries?_next (pair?_write hvalue k) fuel).1 rest (skip_blanks (isBlank_lineBreak d') (by decide) rest)
  | (k, t) :: e' :: es, hne, d, levels, hl, d', fuel, rest, hf => by
    rw [List.length_cons] at hf
    obtain ⟨fuel, rfl⟩ : ∃ n, fuel = n + 1 := ⟨fuel - 1, by omega⟩
    rw [writeEntries_more] at hl
    simp only [List.length_append, List.length_cons] at hl
    have hrest := entries?_write (e' :: es) (List.cons_ne_nil e' es) d levels (by omega) d' fuel rest (by omega)
    have hvalue := value?_write t d levels (',' :: (writeEntries d (e' :: es) ++ (lineBreak d' ++ '\x7d' :: rest)))
      (by omega) (endsNumber_lineBreak none (by decide) _)
    have hskip : skip (writeEntries d ((k, t) :: e' :: es) ++ (lineBreak d' ++ '\x7d' :: rest)) =
        quotedText k ++ (colon d ++ (write d t ++
          ',' :: (writeEntries d (e' :: es) ++ (lineBreak d' ++ '\x7d' :: rest)))) := by
      rw [writeEntries_more]
      simp only [List.append_assoc, List.cons_append]
      exact skip_blanks (isBlank_lineBreak d) (by decide) _
    rw [hskip, (entries?_next (pair?_write hvalue k) fuel).2 _ (skip_of_head (by decide) _), hrest, Option.map_some]

end

/-- A tree's text, in either form, is read as the tree. -/
theorem read?_write (d : Depth) (t : Tree) : read? (String.ofList (write d t)) = some t := by
  obtain ⟨c, cs, hw, hc, -⟩ := write_head d t
  have hskip : skip (write d t) = write d t := by rw [hw, skip_of_head hc]
  have hvalue := value?_write t d (write d t).length [] (Nat.le_refl _) nofun
  rw [List.append_nil] at hvalue
  rw [read?, String.toList_ofList, hskip, hvalue]
  rfl

-- a key that was written twice is read twice
example : read? (compact (.map [("a", .null), ("a", .seq [])])) = some (.map [("a", .null), ("a", .seq [])]) := by
  rfl

end PhaseCert.Json
