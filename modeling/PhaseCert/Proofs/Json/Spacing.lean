/-
  PhaseCert.Proofs.Json.Spacing — the two forms of a JSON text differ in white space only.

  `squeeze` goes through a text and leaves out the white space that stands outside of quotes. It
  takes no token apart: what it is in the middle of is told by the quotes and the backslashes
  alone. What the indented form has more than the compact one is line breaks, indents and the
  blank after a colon, so without these it is the compact form (`squeezed_indented`). White space
  in a key or a text stays, as do the escapes.
-/
import PhaseCert.Proofs.Json.Reader

namespace PhaseCert.Json

/-- A text without the white space outside of quotes. Between quotes everything stays, and a
    backslash keeps the character after it from ending the quotation. -/
def squeeze : (inQuotes : Bool) → List Char → List Char
  | _, [] => []
  | false, c :: cs => if isBlank c then squeeze false cs else c :: squeeze (c = '"') cs
  | true, '\\' :: c :: cs => '\\' :: c :: squeeze true cs
  | true, c :: cs => c :: squeeze (c ≠ '"') cs

def squeezed (s : String) : String := String.ofList (squeeze false s.toList)

/-! ## Outside of quotes -/

theorem squeeze_blanks {bs : List Char} (hb : ∀ c ∈ bs, isBlank c = true) (cs : List Char) :
    squeeze false (bs ++ cs) = squeeze false cs := by
  induction bs with
  | nil => rfl
  | cons b bs ih =>
    rw [List.forall_mem_cons] at hb
    rw [List.cons_append, squeeze, if_pos hb.1, ih hb.2]

theorem squeeze_mark {c : Char} (hb : isBlank c = false) (hq : c ≠ '"') (cs : List Char) :
    squeeze false (c :: cs) = c :: squeeze false cs := by
  rw [squeeze, if_neg (by rw [hb]; exact Bool.false_ne_true), decide_eq_false hq]

theorem squeeze_word {word : List Char} (hw : ∀ c ∈ word, isBlank c = false ∧ c ≠ '"') (cs : List Char) :
    squeeze false (word ++ cs) = word ++ squeeze false cs := by
  induction word with
  | nil => rfl
  | cons c word ih =>
    rw [List.forall_mem_cons] at hw
    rw [List.cons_append, squeeze_mark hw.1.1 hw.1.2, ih hw.2, List.cons_append]

theorem squeeze_number {cs : List Char} (hc : ∀ c ∈ cs, isNumberChar c = true) (rest : List Char) :
    squeeze false (cs ++ rest) = cs ++ squeeze false rest := by
  refine squeeze_word (fun c hmem => ⟨isBlank_of_isNumberChar (hc c hmem), ?_⟩) rest
  rintro rfl
  exact absurd (hc _ hmem) (by decide)

theorem squeeze_colon (d : Depth) (cs : List Char) : squeeze false (colon d ++ cs) = ':' :: squeeze false cs := by
  cases d with
  | none => exact squeeze_mark (by decide) (by decide) cs
  | some d =>
    rw [colon, List.cons_append, squeeze_mark (by decide) (by decide)]
    exact congrArg _ (squeeze_blanks (by decide) cs)

/-! ## Between quotes -/

theorem squeeze_plain {c : Char} (hs : c ≠ '\\') (hq : c ≠ '"') (cs : List Char) :
    squeeze true (c :: cs) = c :: squeeze true cs := by
  rw [squeeze, decide_eq_true hq]
  rintro c' cs' rfl
  exact absurd rfl hs

theorem squeeze_plains {cs : List Char} (hc : ∀ c ∈ cs, c ≠ '\\' ∧ c ≠ '"') (rest : List Char) :
    squeeze true (cs ++ rest) = cs ++ squeeze true rest := by
  induction cs with
  | nil => rfl
  | cons c cs ih =>
    rw [List.forall_mem_cons] at hc
    rw [List.cons_append, squeeze_plain hc.1.1 hc.1.2, ih hc.2, List.cons_append]

theorem plain_hexDigits4 : ∀ n < 0x20, ∀ c ∈ hexDigits4 n, c ≠ '\\' ∧ c ≠ '"' := by decide

/-- A character of a text is kept, whether it is escaped or not. -/
theorem squeeze_escapedChar (c : Char) (cs : List Char) :
    squeeze true (escapedChar c ++ cs) = escapedChar c ++ squeeze true cs := by
  unfold escapedChar
  split
  · rfl
  · rfl
  · rfl
  · rfl
  · rfl
  · rfl
  · rfl
  · rename_i hquote hslash _ _ _ _ _
    by_cases hc : c.toNat < 0x20
    · rw [if_pos hc, List.cons_append, List.cons_append, squeeze, squeeze_plains (plain_hexDigits4 _ hc)]
      rfl
    · rw [if_neg hc, List.singleton_append, squeeze_plain hslash hquote, List.singleton_append]

theorem squeeze_quotedText (s : String) (rest : List Char) :
    squeeze false (quotedText s ++ rest) = quotedText s ++ squeeze false rest := by
  have hchars : ∀ cs : List Char, squeeze true (cs.flatMap escapedChar ++ '"' :: rest) =
      cs.flatMap escapedChar ++ '"' :: squeeze false rest := by
    intro cs
    induction cs with
    | nil => rfl
    | cons c cs ih => rw [List.flatMap_cons, List.append_assoc, squeeze_escapedChar, ih, List.append_assoc]
  have hopen : ∀ cs, squeeze false ('"' :: cs) = '"' :: squeeze true cs := fun _ => rfl
  rw [quotedText, List.cons_append, List.append_assoc, List.singleton_append, hopen, hchars, List.cons_append,
    List.append_assoc, List.singleton_append]

/-! ## Values -/

mutual

theorem squeeze_write : (t : Tree) → ∀ (d : Depth) (rest : List Char),
    squeeze false (write d t ++ rest) = write none t ++ squeeze false rest
  | .null, d, rest => by
    rw [write, write]
    exact squeeze_word (by decide) rest
  | .bool true, d, rest => by
    rw [write, write]
    exact squeeze_word (by decide) rest
  | .bool false, d, rest => by
    rw [write, write]
    exact squeeze_word (by decide) rest
  | .int n, d, rest => by
    rw [write, write]
    exact squeeze_number (number?_intText n).2 rest
  | .float x, d, rest => by
    rw [write, write]
    exact squeeze_number (number?_floatText x).2 rest
  | .text s, d, rest => by
    rw [write, write]
    exact squeeze_quotedText s rest
  | .seq [], d, rest => by
    rw [write, write]
    exact squeeze_word (by decide) rest
  | .seq (t :: ts), d, rest => by
    have hitems := squeeze_writeItems (t :: ts) d.deeper (lineBreak d ++ ']' :: rest)
    rw [squeeze_blanks (isBlank_lineBreak d), squeeze_mark (by decide) (by decide)] at hitems
    rw [write, write, List.cons_append, List.append_assoc, List.append_assoc, List.singleton_append,
      squeeze_mark (by decide) (by decide), hitems]
    simp [lineBreak, Depth.deeper]
  | .map [], d, rest => by
    rw [write, write]
    exact squeeze_word (by decide) rest
  | .map (e :: es), d, rest => by
    have hentries := squeeze_writeEntries (e :: es) d.deeper (lineBreak d ++ '\x7d' :: rest)
    rw [squeeze_blanks (isBlank_lineBreak d), squeeze_mark (by decide) (by decide)] at hentries
    rw [write, write, List.cons_append, List.append_assoc, List.append_assoc, List.singleton_append,
      squeeze_mark (by decide) (by decide), hentries]
    simp [lineBreak, Depth.deeper]

theorem squeeze_writeItems : (ts : List Tree) → ∀ (d : Depth) (rest : List Char),
    squeeze false (writeItems d ts ++ rest) = writeItems none ts ++ squeeze false rest
  | [], d, rest => rfl
  | [t], d, rest => by
    rw [writeItems, List.append_assoc, squeeze_blanks (isBlank_lineBreak d), squeeze_write t d rest]
    rfl
  | t :: t' :: ts, d, rest => by
    rw [writeItems_more, writeItems_more, List.append_assoc, List.append_assoc, List.cons_append,
      squeeze_blanks (isBlank_lineBreak d), squeeze_write t d, squeeze_mark (by decide) (by decide),
      squeeze_writeItems (t' :: ts) d rest]
    simp [lineBreak]

theorem squeeze_writeEntries : (es : List (String × Tree)) → ∀ (d : Depth) (rest : List Char),
    squeeze false (writeEntries d es ++ rest) = writeEntries none es ++ squeeze false rest
  | [], d, rest => rfl
  | [(k, t)], d, rest => by
    simp only [writeEntries, List.append_assoc]
    rw [squeeze_blanks (isBlank_lineBreak d), squeeze_quotedText, squeeze_colon, squeeze_write t d rest]
    rfl
  | (k, t) :: e :: es, d, rest => by
    rw [writeEntries_more, writeEntries_more]
    simp only [List.append_assoc, List.cons_append]
    rw [squeeze_blanks (isBlank_lineBreak d), squeeze_quotedText, squeeze_colon, squeeze_write t d,
      squeeze_mark (by decide) (by decide), squeeze_writeEntries (e :: es) d rest]
    rfl

end

/-- Without its white space the indented form of a tree is the compact one. -/
theorem squeezed_indented (t : Tree) : squeezed (indented t) = compact t := by
  have h := squeeze_write t (some 0) []
  rw [List.append_nil, squeeze, List.append_nil] at h
  rw [squeezed, indented, compact, String.toList_ofList, h]

end PhaseCert.Json
