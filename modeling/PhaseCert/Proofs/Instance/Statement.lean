/-
  PhaseCert.Proofs.Instance.Statement — the statements of an instance, and when they are true.

  A statement is the line after its head. Its words make a `Formula`: comparisons of names and
  numerals, joined by conjunction and by implication, which binds less. What a formula means
  (`Formula.meaning?`) is settled by the text it stands in: a name is the constant of that name
  that the text defines, and a name without a definition leaves the formula without a meaning.
  So `StatementHolds` says of a text alone that the statement in it is true.
-/
import PhaseCert.Proofs.Instance.Reading

namespace PhaseCert.Instance

/-! ## Formulas -/

inductive Formula where
  | compare (strict : Bool) (left right : List Char)
  | conj (left right : Formula)
  | implies (left right : Formula)
  deriving DecidableEq

namespace Formula

/-- A number that a formula names. -/
def number? (constants : String → Option ℚ) (word : List Char) : Option ℚ :=
  match Numeral.value? word with
  | some x => some x
  | none => constants (String.ofList word)

/-- What a formula says, if every name in it is a constant. -/
def meaning? (constants : String → Option ℚ) : Formula → Option Prop
  | compare strict l r => do
    let x ← number? constants l
    let y ← number? constants r
    return if strict then x < y else x ≤ y
  | conj f g => do return (← f.meaning? constants) ∧ (← g.meaning? constants)
  | implies f g => do return (← f.meaning? constants) → (← g.meaning? constants)

/-- A conjunction, with its right side read before: an implication there takes the whole
    conjunction as its own left side. -/
def joined (f : Formula) : Formula → Formula
  | implies g h => implies (conj f g) h
  | g => conj f g

def comparison? (left mark right : List Char) : Option Formula :=
  if mark = ['<', '='] then some (compare false left right)
  else if mark = ['<'] then some (compare true left right)
  else none

/-- The formula that words spell. -/
def ofWords? : List (List Char) → Option Formula
  | [l, mark, r] => comparison? l mark r
  | l :: mark :: r :: connective :: rest => do
    let f ← comparison? l mark r
    let g ← ofWords? rest
    if connective = ['/', '\\'] then some (joined f g)
    else if connective = ['-', '>'] then some (implies f g)
    else none
  | _ => none

end Formula

/-! ## Statements in a text -/

/-- The pieces between blanks. -/
def pieces : List Char → List (List Char)
  | [] => [[]]
  | c :: cs =>
    if c = ' ' then [] :: pieces cs
    else
      match pieces cs with
      | [] => [[c]]
      | w :: ws => (c :: w) :: ws

/-- The formula of a line that ends in a full stop. -/
def formulaOf? (line : String) : Option Formula := do
  let text ← ['.'].isSuffixOf? line.toList
  Formula.ofWords? ((pieces text).filter (· ≠ []))

/-- The line after the first line that is the head. -/
def lineAfter? (head : String) : List String → Option String
  | l :: next :: ls => if l = head then some next else lineAfter? head (next :: ls)
  | _ => none

/-- The text states something under this head, and that is true of the constants that the text
    defines. -/
def StatementHolds (source head : String) : Prop :=
  ∃ line f p, lineAfter? head (sourceLines source) = some line ∧ formulaOf? line = some f ∧
    f.meaning? (constant? source) = some p ∧ p

theorem lineAfter?_append {head : String} {before : List String} (h : head ∉ before) (next : String) (ls : List String) :
    lineAfter? head (before ++ head :: next :: ls) = some next := by
  induction before with
  | nil => simp [lineAfter?]
  | cons l before ih =>
    rw [List.mem_cons, not_or] at h
    have ih := ih h.2
    cases before with
    | nil =>
      rw [List.singleton_append, lineAfter?, if_neg (Ne.symm h.1)]
      exact ih
    | cons l' before =>
      simp only [List.cons_append, lineAfter?] at ih ⊢
      rw [if_neg (Ne.symm h.1)]
      exact ih

/-! ## The statements of an instance -/

def intervalHead : String := "Lemma delta_ph_interval_sound :"

def intervalLine : String :=
  "  0 <= delta_ph_lower /\\ delta_ph_lower <= delta_ph_upper /\\ delta_ph_upper <= 1."

def securityHead : String := "Theorem b92_security_stub :"

def securityLine : String := "  0 < epsilon -> 0 <= delta_ph_lower /\\ delta_ph_upper <= 1."

theorem head?_literal {s : String} {l : List Char} {c : Option Char} (h : s = String.ofList l) (hl : l.head? = c) :
    s.toList.head? = c := by
  rw [h, String.toList_ofList, hl]

theorem head?_definition (name type literal : String) : (definition name type literal).toList.head? = some 'D' := by
  rw [toList_definition, List.head?_cons]

/-- How the lines of an instance begin, whatever its values are. -/
theorem heads_lines (v : InstanceValues) : (lines v).map (fun l => l.toList.head?) =
    [some '(', some ' ', none, some 'R', some 'R', some 'R', some 'O', none, some '(', some 'D', some 'D', some 'D',
      none, some '(', some 'D', some 'D', none, some '(', some 'D', none, some 'L', some ' ', some 'P', some ' ',
      some 'Q', none, some 'T', some ' ', some 'P', some ' ', some 'Q'] := by
  simp only [lines, List.map_cons, List.map_nil, List.cons.injEq, head?_definition, true_and, and_true]
  and_intros
  all_goals exact head?_literal rfl rfl

theorem not_mem_take {head : String} {ls : List String} {n : Nat}
    (h : head.toList.head? ∉ (ls.map fun l => l.toList.head?).take n) : head ∉ ls.take n := by
  intro hm
  rw [← List.map_take] at h
  exact h (List.mem_map_of_mem hm)

/-- No line before the lemma begins like its head. -/
theorem intervalHead_not_mem (v : InstanceValues) : intervalHead ∉ (lines v).take 20 := by
  apply not_mem_take
  rw [heads_lines]
  decide

theorem securityHead_not_mem (v : InstanceValues) : securityHead ∉ (lines v).take 26 := by
  apply not_mem_take
  rw [heads_lines]
  decide

/-- The lower end is not negative, the ends are in order, and the upper end is at most 1. -/
def intervalFormula : Formula :=
  .conj (.compare false ['0'] "delta_ph_lower".toList)
    (.conj (.compare false "delta_ph_lower".toList "delta_ph_upper".toList)
      (.compare false "delta_ph_upper".toList ['1']))

/-- A positive epsilon makes both ends lie in the unit interval. -/
def securityFormula : Formula :=
  .implies (.compare true ['0'] "epsilon".toList)
    (.conj (.compare false ['0'] "delta_ph_lower".toList) (.compare false "delta_ph_upper".toList ['1']))

theorem formulaOf?_interval : formulaOf? intervalLine = some intervalFormula := by decide

theorem formulaOf?_security : formulaOf? securityLine = some securityFormula := by decide

theorem lineAfter?_interval (v : InstanceValues) : lineAfter? intervalHead (lines v) = some intervalLine :=
  lineAfter?_append (intervalHead_not_mem v) intervalLine ((lines v).drop 22)

theorem lineAfter?_security (v : InstanceValues) : lineAfter? securityHead (lines v) = some securityLine :=
  lineAfter?_append (securityHead_not_mem v) securityLine ((lines v).drop 28)

theorem number?_numeral {constants : String → Option ℚ} {word : List Char} {x : ℚ} (h : Numeral.value? word = some x) :
    Formula.number? constants word = some x := by
  simp only [Formula.number?, h]

theorem number?_name {constants : String → Option ℚ} {name : String} {x : ℚ}
    (hn : Numeral.decimal? (Numeral.sign name.toList).2 = none) (h : constants name = some x) :
    Formula.number? constants name.toList = some x := by
  have : Numeral.value? name.toList = none := by
    simp only [Numeral.value?, hn, Option.map_none]
  simp only [Formula.number?, this, String.ofList_toList, h]

theorem value?_zero : Numeral.value? ['0'] = some 0 := by
  have h : Numeral.decimal? ['0'] = some ⟨0, 0⟩ := by decide
  simp [Numeral.value?, Numeral.sign, h, Decimal.toRat]

theorem value?_one : Numeral.value? ['1'] = some 1 := by
  have h : Numeral.decimal? ['1'] = some ⟨1, 0⟩ := by decide
  simp [Numeral.value?, Numeral.sign, h, Decimal.toRat]

section

variable {v : InstanceValues} {l u e : ℚ}

/-- The statement about the interval holds in the text of values whose interval, as it is
    shown, is in order within the unit interval. -/
theorem statementHolds_interval (hf : ∀ r ∈ reals v, r.2.isFinite = true)
    (hl : constant? (joinLines (lines v)) "delta_ph_lower" = some l)
    (hu : constant? (joinLines (lines v)) "delta_ph_upper" = some u) (h0 : 0 ≤ l) (hlu : l ≤ u) (h1 : u ≤ 1) :
    StatementHolds (joinLines (lines v)) intervalHead := by
  refine ⟨intervalLine, intervalFormula, 0 ≤ l ∧ l ≤ u ∧ u ≤ 1, ?_, formulaOf?_interval, ?_, h0, hlu, h1⟩
  · rw [sourceLines_joinLines (newline_not_mem_lines hf)]
    exact lineAfter?_interval v
  · have el := number?_name (by decide) hl
    have eu := number?_name (by decide) hu
    simp only [intervalFormula, Formula.meaning?, number?_numeral value?_zero, number?_numeral value?_one, el, eu]
    rfl

theorem statementHolds_security (hf : ∀ r ∈ reals v, r.2.isFinite = true)
    (hl : constant? (joinLines (lines v)) "delta_ph_lower" = some l)
    (hu : constant? (joinLines (lines v)) "delta_ph_upper" = some u)
    (he : constant? (joinLines (lines v)) "epsilon" = some e) (h0 : 0 ≤ l) (h1 : u ≤ 1) :
    StatementHolds (joinLines (lines v)) securityHead := by
  refine ⟨securityLine, securityFormula, 0 < e → 0 ≤ l ∧ u ≤ 1, ?_, formulaOf?_security, ?_, fun _ => ⟨h0, h1⟩⟩
  · rw [sourceLines_joinLines (newline_not_mem_lines hf)]
    exact lineAfter?_security v
  · have el := number?_name (by decide) hl
    have eu := number?_name (by decide) hu
    have ee := number?_name (by decide) he
    simp only [securityFormula, Formula.meaning?, number?_numeral value?_zero, number?_numeral value?_one, el, eu, ee]
    rfl

end

end PhaseCert.Instance
