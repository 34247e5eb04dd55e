/-
  PhaseCert.Proofs.Flow — trees written on one line.

  `Tree.flow` writes a tree on one line: sequences in brackets and mappings in braces, commas
  between what is in them, a mark between a key and its value, keys and texts between double
  quotes, integers in decimal and floats as JSON has them. The mark and the number of blanks are
  the style's. Both notations of documents have such texts among theirs, with a colon for a mark
  or an equals sign; how each reads them is shown apart.

  `Tree.Printable` says which trees are so written here: no nulls, texts and keys of plain
  characters, keys that differ and are not long, and only so many collections in one another.
-/
import PhaseCert.Json.Writer
import PhaseCert.Proofs.Decimal.Layout
import PhaseCert.Proofs.Tree

namespace PhaseCert

/-- What is said of all members of a list is decided member by member, and never over all characters. -/
instance (priority := high) decidableAll {α : Type} {p : α → Prop} [DecidablePred p] (xs : List α) :
    Decidable (∀ x ∈ xs, p x) := List.decidableBAll p xs

/-- As `decidableAll`, for some member. -/
instance (priority := high) decidableSome {α : Type} {p : α → Prop} [DecidablePred p] (xs : List α) :
    Decidable (∃ x ∈ xs, p x) := List.decidableBEx p xs

/-! ## The layout -/

/-- The mark between a key and its value, and how many blanks stand before and after it, after a
    comma, and inside brackets and braces. -/
structure FlowStyle where
  mark : Char
  before : Nat
  after : Nat
  gap : Nat
  pad : Nat

def blanks (n : Nat) : List Char := List.replicate n ' '

namespace FlowStyle

def markText (style : FlowStyle) : List Char := blanks style.before ++ style.mark :: blanks style.after

/-- What follows an item or an entry: a comma, or nothing after the last one. -/
def separator (style : FlowStyle) (last : Bool) : List Char :=
  if last then blanks style.pad else ',' :: blanks style.gap

end FlowStyle

def quoted (s : String) : List Char := '"' :: (s.toList ++ ['"'])

namespace Tree

mutual

def flow (style : FlowStyle) : Tree → List Char
  | .null => ['n', 'u', 'l', 'l']
  | .bool true => ['t', 'r', 'u', 'e']
  | .bool false => ['f', 'a', 'l', 's', 'e']
  | .int n => Json.intText n.val
  | .float x => Json.floatText x.val
  | .text s => quoted s
  | .seq items => '[' :: (blanks style.pad ++ (flowItems style items ++ [']']))
  | .map entries => '\x7b' :: (blanks style.pad ++ (flowEntries style entries ++ ['\x7d']))

def flowItems (style : FlowStyle) : List Tree → List Char
  | [] => []
  | t :: rest => flow style t ++ (style.separator rest.isEmpty ++ flowItems style rest)

def flowEntries (style : FlowStyle) : List (String × Tree) → List Char
  | [] => []
  | (k, t) :: rest =>
    quoted k ++ (style.markText ++ (flow style t ++ (style.separator rest.isEmpty ++ flowEntries style rest)))

end

end Tree

/-! ## What is written -/

/-- A printable ASCII character that needs no escape between double quotes. -/
def IsClean (c : Char) : Prop := 0x20 ≤ c.toNat ∧ c.toNat < 0x7f ∧ c ≠ '"' ∧ c ≠ '\\'

instance : DecidablePred IsClean := fun c =>
  inferInstanceAs (Decidable (0x20 ≤ c.toNat ∧ c.toNat < 0x7f ∧ c ≠ '"' ∧ c ≠ '\\'))

def Clean (s : String) : Prop := ∀ c ∈ s.toList, IsClean c

instance : DecidablePred Clean := fun s => inferInstanceAs (Decidable (∀ c ∈ s.toList, IsClean c))

/-- A key of clean characters, of which there are not too many. -/
def CleanKey (s : String) : Prop := Clean s ∧ s.toList.length ≤ 1000

instance : DecidablePred CleanKey := fun s => inferInstanceAs (Decidable (Clean s ∧ s.toList.length ≤ 1000))

/-- A tree with at most so many collections around any part of it that can be written. -/
inductive Tree.Printable : Nat → Tree → Prop
  | bool {d : Nat} (b : Bool) : Printable d (.bool b)
  | int {d : Nat} {n : Whole} : n.val < 9223372036854775808 → Printable d (.int n)
  | float {d : Nat} (x : Finite64) : Printable d (.float x)
  | text {d : Nat} {s : String} : Clean s → Printable d (.text s)
  | seq {d : Nat} {items : List Tree} : (∀ t ∈ items, Printable d t) → Printable (d + 1) (.seq items)
  | map {d : Nat} {entries : List (String × Tree)} : KeysDiffer entries → (∀ e ∈ entries, CleanKey e.1) →
      (∀ e ∈ entries, Printable d e.2) → Printable (d + 1) (.map entries)

theorem Tree.Printable.mono {d d' : Nat} {t : Tree} (h : Printable d t) (hd : d ≤ d') : Printable d' t := by
  induction h generalizing d' with
  | bool b => exact .bool b
  | int hn => exact .int hn
  | float x => exact .float x
  | text hs => exact .text hs
  | seq _ ih =>
    obtain ⟨e, rfl⟩ : ∃ e, d' = e + 1 := ⟨d' - 1, by omega⟩
    exact .seq fun t ht => ih t ht (by omega)
  | map hk hc _ ih =>
    obtain ⟨e, rfl⟩ : ∃ e, d' = e + 1 := ⟨d' - 1, by omega⟩
    exact .map hk hc fun t ht => ih t ht (by omega)

/-- What may come after a value on its line. -/
def EndsValue (rest : List Char) : Prop := ∀ c ∈ rest.head?, c ∈ [' ', ',', ']', '\x7d', '\n']

/-! ## Numbers -/

open Numeral

/-- The sign that a number is written with: a minus or nothing. -/
def minus (negative : Bool) : List Char := if negative then ['-'] else []

theorem signText_minus (negative : Bool) : SignText (minus negative) negative := by
  cases negative
  · exact .none
  · exact .minus

theorem intText_eq (n : Int) : Json.intText n = minus (n < 0) ++ (toString n.natAbs).toList := by
  cases n with
  | ofNat m => simp [Json.intText, minus, toString, Int.repr, Int.natAbs]
  | negSucc m => simp [Json.intText, minus, toString, Int.repr, Int.natAbs, Int.negSucc_lt_zero]

/-- The text of a double: a minus or nothing, and what is read as its decimal. -/
theorem floatText_eq (s : Bool) (r : Fin Binary64.topRank) :
    ∃ cs d, Json.floatText (.finite s r) = minus s ++ cs ∧ FloatText cs d ∧ d.toBinary64 s = .finite s r := by
  obtain ⟨d, htext, hd⟩ := NumberLayout.floatText_shortest (show NumberLayout.json.pointZero = true from rfl) s r
  refine ⟨_, d, ?_, htext, hd⟩
  rw [Json.floatText, NumberLayout.text, String.toList_ofList, minus]

/-- A number begins with a minus or a digit. -/
theorem head_minus {whole : List Char} (hw : WholeText whole) (tail : List Char) (negative : Bool) :
    ∃ c cs, minus negative ++ (whole ++ tail) = c :: cs ∧ (c = '-' ∨ c.isDigit = true) := by
  cases negative with
  | true => exact ⟨'-', _, rfl, .inl rfl⟩
  | false =>
    obtain ⟨c, cs, hc⟩ := List.exists_cons_of_ne_nil hw.ne_nil
    refine ⟨c, cs ++ tail, ?_, .inr (hw.digits c (by simp [hc]))⟩
    rw [hc]
    rfl

/-! ## The characters of a text -/

/-- A printable ASCII character. -/
def IsPrintable (c : Char) : Prop := 0x20 ≤ c.toNat ∧ c.toNat < 0x7f

instance : DecidablePred IsPrintable := fun c => inferInstanceAs (Decidable (0x20 ≤ c.toNat ∧ c.toNat < 0x7f))

theorem toNat_of_isDigit {c : Char} (h : c.isDigit = true) : 48 ≤ c.toNat ∧ c.toNat < 58 := by
  simp only [Char.isDigit, Bool.and_eq_true, decide_eq_true_eq] at h
  have h1 := UInt32.le_iff_toNat_le.1 h.1
  have h2 := UInt32.le_iff_toNat_le.1 h.2
  exact ⟨h1, Nat.lt_succ_of_le h2⟩

/-- What holds of the ten digits holds of every digit. -/
theorem forall_isDigit {P : Char → Prop} (h : ∀ n < 10, P (Char.ofNat (48 + n))) {c : Char} (hc : c.isDigit = true) :
    P c := by
  obtain ⟨h1, h2⟩ := toNat_of_isDigit hc
  have hn := h (c.toNat - 48) (by omega)
  rwa [show 48 + (c.toNat - 48) = c.toNat by omega, Char.ofNat_toNat] at hn

theorem isPrintable_of_isDigit {c : Char} (h : c.isDigit = true) : IsPrintable c := by
  obtain ⟨h1, h2⟩ := toNat_of_isDigit h
  exact ⟨by omega, by omega⟩

theorem isPrintable_blanks (n : Nat) : ∀ c ∈ blanks n, IsPrintable c := by
  intro c hc
  rw [List.eq_of_mem_replicate hc]
  decide

theorem isPrintable_quoted {s : String} (h : Clean s) : ∀ c ∈ quoted s, IsPrintable c := by
  intro c hc
  simp only [quoted, List.mem_cons, List.mem_append, List.not_mem_nil, or_false] at hc
  rcases hc with rfl | hc | rfl
  · decide
  · exact ⟨(h c hc).1, (h c hc).2.1⟩
  · decide

theorem isPrintable_numeral {cs : List Char} {negative : Bool} {d : Decimal} (h : DecimalText cs negative d) :
    ∀ c ∈ cs, IsPrintable c := by
  have hmarks : ∀ c ∈ ['+', '-', '.', 'e', 'E'], IsPrintable c := by decide
  intro c hc
  rcases decimalText_chars h c hc with h | h
  · exact isPrintable_of_isDigit h
  · exact hmarks c h

theorem isPrintable_separator (style : FlowStyle) (last : Bool) : ∀ c ∈ style.separator last, IsPrintable c := by
  cases last with
  | true => exact isPrintable_blanks style.pad
  | false =>
    rw [FlowStyle.separator, if_neg Bool.false_ne_true, List.forall_mem_cons]
    exact ⟨by decide, isPrintable_blanks style.gap⟩

theorem isPrintable_flowItems {style : FlowStyle} {ts : List Tree} (h : ∀ t ∈ ts, ∀ c ∈ t.flow style, IsPrintable c) :
    ∀ c ∈ Tree.flowItems style ts, IsPrintable c := by
  induction ts with
  | nil => exact List.forall_mem_nil _
  | cons t ts ih =>
    rw [List.forall_mem_cons] at h
    rw [Tree.flowItems, List.forall_mem_append, List.forall_mem_append]
    exact ⟨h.1, isPrintable_separator _ _, ih h.2⟩

section

variable {style : FlowStyle} (hmark : IsPrintable style.mark)

include hmark

theorem isPrintable_markText : ∀ c ∈ style.markText, IsPrintable c := by
  rw [FlowStyle.markText, List.forall_mem_append, List.forall_mem_cons]
  exact ⟨isPrintable_blanks _, hmark, isPrintable_blanks _⟩

theorem isPrintable_flowEntries {es : List (String × Tree)} (hk : ∀ e ∈ es, CleanKey e.1)
    (h : ∀ e ∈ es, ∀ c ∈ e.2.flow style, IsPrintable c) : ∀ c ∈ Tree.flowEntries style es, IsPrintable c := by
  induction es with
  | nil => exact List.forall_mem_nil _
  | cons e es ih =>
    rw [List.forall_mem_cons] at h hk
    rw [Tree.flowEntries, List.forall_mem_append, List.forall_mem_append, List.forall_mem_append, List.forall_mem_append]
    exact ⟨isPrintable_quoted hk.1.1, isPrintable_markText hmark, h.1, isPrintable_separator _ _, ih hk.2 h.2⟩

/-- What is written on one line is printable. -/
theorem Tree.Printable.chars {d : Nat} {t : Tree} (h : Printable d t) : ∀ c ∈ t.flow style, IsPrintable c := by
  induction h with
  | bool b => cases b <;> (rw [flow]; decide)
  | int hn =>
    rename_i n
    have hdigits : ∀ c ∈ (toString n.val.natAbs).toList, IsPrintable c := fun c hc =>
      isPrintable_of_isDigit (allDigits_toString _ c hc)
    have hminus : ∀ c ∈ minus (n.val < 0), IsPrintable c := by
      unfold minus
      split <;> decide
    rw [flow, intText_eq, List.forall_mem_append]
    exact ⟨hminus, hdigits⟩
  | float x =>
    obtain ⟨x, hx⟩ := x
    cases x with
    | nan => cases hx
    | infinite s => cases hx
    | finite s r =>
      obtain ⟨cs, d, htext, hfloat, -⟩ := floatText_eq s r
      rw [flow, htext]
      exact isPrintable_numeral (hfloat.decimalText (signText_minus s))
  | text hs => exact isPrintable_quoted hs
  | seq _ ih =>
    rw [flow, List.forall_mem_cons, List.forall_mem_append, List.forall_mem_append]
    exact ⟨by decide, isPrintable_blanks _, isPrintable_flowItems ih, by decide⟩
  | map _ hk _ ih =>
    rw [flow, List.forall_mem_cons, List.forall_mem_append, List.forall_mem_append]
    exact ⟨by decide, isPrintable_blanks _, isPrintable_flowEntries hmark hk ih, by decide⟩

end

/-! ## How a value begins and ends -/

/-- What a value begins with. -/
def StartsValue (c : Char) : Prop :=
  c ∈ ['[', '\x7b', '"', 't', 'f', '-', '0', '1', '2', '3', '4', '5', '6', '7', '8', '9']

theorem startsValue_of_isDigit {c : Char} (h : c.isDigit = true) : StartsValue c := by
  refine forall_isDigit ?_ h
  unfold StartsValue
  decide

theorem Tree.Printable.head {d : Nat} {t : Tree} (h : Printable d t) (style : FlowStyle) :
    ∃ c cs, t.flow style = c :: cs ∧ StartsValue c := by
  have hnumber : ∀ c : Char, c = '-' ∨ c.isDigit = true → StartsValue c := by
    rintro c (rfl | hc)
    · unfold StartsValue
      decide
    · exact startsValue_of_isDigit hc
  cases h with
  | bool b =>
    cases b
    · exact ⟨'f', _, rfl, by unfold StartsValue; decide⟩
    · exact ⟨'t', _, rfl, by unfold StartsValue; decide⟩
  | int hn =>
    rename_i n
    obtain ⟨c, cs, hc, hfirst⟩ := head_minus (wholeText_toString n.val.natAbs) [] (n.val < 0)
    refine ⟨c, cs, ?_, hnumber c hfirst⟩
    rw [flow, intText_eq, ← hc, List.append_nil]
  | float x =>
    obtain ⟨x, hx⟩ := x
    cases x with
    | nan => cases hx
    | infinite s => cases hx
    | finite s r =>
      obtain ⟨text, dec, ht, ⟨hw, -, -, -, -⟩, -⟩ := floatText_eq s r
      obtain ⟨c, cs, hc, hfirst⟩ := head_minus hw _ s
      refine ⟨c, cs, ?_, hnumber c hfirst⟩
      rw [flow, ht, ← hc]
  | text _ => exact ⟨'"', _, rfl, by unfold StartsValue; decide⟩
  | seq _ => exact ⟨'[', _, rfl, by unfold StartsValue; decide⟩
  | map _ _ _ => exact ⟨'\x7b', _, rfl, by unfold StartsValue; decide⟩

theorem endsValue_cons {c : Char} (h : c ∈ [' ', ',', ']', '\x7d', '\n']) (rest : List Char) : EndsValue (c :: rest) := by
  intro x hx
  rw [List.head?_cons, Option.mem_some_iff] at hx
  rwa [← hx]

theorem endsValue_blanks (n : Nat) {rest : List Char} (h : EndsValue rest) : EndsValue (blanks n ++ rest) := by
  cases n with
  | zero => exact h
  | succ n => exact endsValue_cons (by decide) _

/-- What follows an item or an entry ends its value. -/
theorem endsValue_separator (style : FlowStyle) (last : Bool) {rest : List Char} (h : last = true → EndsValue rest) :
    EndsValue (style.separator last ++ rest) := by
  cases last with
  | true => exact endsValue_blanks _ (h rfl)
  | false => exact endsValue_cons (by decide) _

theorem Tree.length_flowItems (style : FlowStyle) {items : List Tree} (h : ∀ t ∈ items, ∃ d, t.Printable d) :
    items.length ≤ (flowItems style items).length := by
  induction items with
  | nil => exact Nat.zero_le _
  | cons t rest ih =>
    rw [List.forall_mem_cons] at h
    obtain ⟨⟨d, ht⟩, h⟩ := h
    obtain ⟨c, cs, hc, -⟩ := ht.head style
    have ih := ih h
    rw [flowItems, hc]
    simp only [List.length_cons, List.length_append]
    omega

theorem Tree.length_flowEntries (style : FlowStyle) (entries : List (String × Tree)) :
    entries.length ≤ (flowEntries style entries).length := by
  induction entries with
  | nil => exact Nat.zero_le _
  | cons e rest ih =>
    rw [flowEntries, quoted]
    simp only [List.length_cons, List.length_append, List.cons_append]
    omega

end PhaseCert
