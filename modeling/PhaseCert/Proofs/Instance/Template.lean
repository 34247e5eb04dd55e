/-
  PhaseCert.Proofs.Instance.Template — the text of an instance is a template that was filled in,
  and the values can be read back from it.

  The template has six holes, each a name between two pairs of braces (`template`, `fill`). The
  lines of an instance are those of the template with the literal of a value in each hole
  (`map_fill_template`). No brace is left in them (`noBrace_lines`).

  What a text defines is read off it line by line (`definitions?`). An instance defines six
  constants, each once and in the order of the template: the count, and five reals as the decimals
  that they are written as (`definitions?_lines`). A literal stands between the sign of a
  definition and the stop, so no value can be taken for another one, and texts are the same only
  if the values are, as far as they are written. There is a text unless one of the reals is no
  finite number, and then the first such real is named (`render_spec`).
-/
import PhaseCert.Proofs.Flow
import PhaseCert.Proofs.Instance.Literal
import PhaseCert.Proofs.Instance.Soundness
import PhaseCert.Proofs.Parameters

namespace PhaseCert.Instance

open Numeral

/-! ## Filling a template -/

/-- What follows, with each hole filled; inside a hole, what was read of it so far, backwards. -/
def fillFrom (value : String → String) : Option (List Char) → List Char → List Char
  | none, '{' :: '{' :: cs => fillFrom value (some []) cs
  | none, c :: cs => c :: fillFrom value none cs
  | some name, '}' :: '}' :: cs => (value (trimBlanks (String.ofList name.reverse))).toList ++ fillFrom value none cs
  | some name, c :: cs => fillFrom value (some (c :: name)) cs
  | _, [] => []

/-- A line with each hole filled by what is given for its name. -/
def fill (value : String → String) (line : String) : String := String.ofList (fillFrom value none line.toList)

/-- The source of an instance, with a hole for each value. -/
def template : List String :=
  ["(* Proof instance generated by qkdv. Do not edit by hand:",
    "   regenerate it from the protocol configuration instead. *)",
    "",
    "Require Import Reals.",
    "Require Import ZArith.",
    "Require Import Lra.",
    "Open Scope R_scope.",
    "",
    "(* Protocol parameters *)",
    "Definition N : Z := \x7b\x7b n \x7d\x7d.",
    "Definition p_psi0 : R := \x7b\x7b p_psi0 \x7d\x7d.",
    "Definition p_psi1 : R := \x7b\x7b p_psi1 \x7d\x7d.",
    "",
    "(* Certified phase-error interval *)",
    "Definition delta_ph_lower : R := \x7b\x7b delta_ph_lower \x7d\x7d.",
    "Definition delta_ph_upper : R := \x7b\x7b delta_ph_upper \x7d\x7d.",
    "",
    "(* Security parameter budget *)",
    "Definition epsilon : R := \x7b\x7b epsilon \x7d\x7d.",
    "",
    "Lemma delta_ph_interval_sound :",
    "  0 <= delta_ph_lower /\\ delta_ph_lower <= delta_ph_upper /\\ delta_ph_upper <= 1.",
    "Proof.",
    "  unfold delta_ph_lower, delta_ph_upper; lra.",
    "Qed.",
    "",
    "Theorem b92_security_stub :",
    "  0 < epsilon -> 0 <= delta_ph_lower /\\ delta_ph_upper <= 1.",
    "Proof.",
    "  intros _; unfold delta_ph_lower, delta_ph_upper; lra.",
    "Qed."]

/-- The literal for each hole of the template. -/
def literalOf (v : InstanceValues) (name : String) : String :=
  match name with
  | "n" => intLiteral v.n
  | "p_psi0" => realLiteral v.prior0
  | "p_psi1" => realLiteral v.prior1
  | "delta_ph_lower" => realLiteral v.lower
  | "delta_ph_upper" => realLiteral v.upper
  | "epsilon" => realLiteral v.epsilon
  | _ => ""

theorem fillFrom_plain (value : String → String) {cs : List Char} (h : '{' ∉ cs) (rest : List Char) :
    fillFrom value none (cs ++ rest) = cs ++ fillFrom value none rest := by
  induction cs with
  | nil => rfl
  | cons c cs ih =>
    rw [List.mem_cons, not_or] at h
    rw [List.cons_append, fillFrom, ih h.2, List.cons_append]
    intro cs' hc
    exact absurd hc.symm h.1

/-- A line without a hole stays as it is. -/
theorem fill_plain (value : String → String) {line : String} {cs : List Char} (hline : line = String.ofList cs)
    (h : '{' ∉ cs) : fill value line = line := by
  have hplain := fillFrom_plain value h []
  rw [List.append_nil] at hplain
  rw [hline, fill, String.toList_ofList, hplain]
  simp [fillFrom]

theorem fillFrom_name (value : String → String) {name : List Char} (h : '}' ∉ name) (before rest : List Char) :
    fillFrom value (some before) (name ++ '}' :: '}' :: rest)
      = (value (trimBlanks (String.ofList (before.reverse ++ name)))).toList ++ fillFrom value none rest := by
  induction name generalizing before with
  | nil => simp [fillFrom]
  | cons c name ih =>
    rw [List.mem_cons, not_or] at h
    rw [List.cons_append, fillFrom, ih h.2]
    · simp
    · intro cs' hc
      exact absurd hc.symm h.1

/-- A definition with a hole for its literal. -/
theorem fill_definition (value : String → String) {name type hole : String} (hname : '{' ∉ name.toList)
    (htype : '{' ∉ type.toList) (hhole : '}' ∉ hole.toList) (hblanks : trimBlanks (" " ++ hole ++ " ") = hole) :
    fill value (definition name type ("\x7b\x7b " ++ hole ++ " \x7d\x7d")) = definition name type (value hole) := by
  obtain ⟨before, hbefore⟩ : ∃ before, before = 'D' :: ("efinition ".toList ++ (name.toList ++ ' ' ::
      (": ".toList ++ (type.toList ++ " := ".toList)))) := ⟨_, rfl⟩
  have hopen : '{' ∉ before := by
    rw [hbefore]
    simp [hname, htype]
  have hclose : '}' ∉ ' ' :: (hole.toList ++ [' ']) := by
    simp [hhole]
  have hline : ∀ literal : String, (definition name type literal).toList = before ++ (literal.toList ++ ['.']) := by
    intro literal
    rw [toList_definition, hbefore]
    simp only [List.cons_append, List.append_assoc]
  have hbraces : ("\x7b\x7b " ++ hole ++ " \x7d\x7d").toList ++ ['.']
      = '{' :: '{' :: ((' ' :: (hole.toList ++ [' '])) ++ '}' :: '}' :: ['.']) := by
    simp
  have hread : String.ofList (' ' :: (hole.toList ++ [' '])) = " " ++ hole ++ " " := by
    rw [← String.toList_inj]
    simp
  rw [← String.toList_inj, fill, String.toList_ofList, hline, hline, hbraces, fillFrom_plain value hopen, fillFrom,
    fillFrom_name value hclose, List.reverse_nil, List.nil_append, hread, hblanks]
  simp [fillFrom]

/-- The lines of an instance are those of the template with a literal in each hole. -/
theorem map_fill_template (v : InstanceValues) : template.map (fill (literalOf v)) = lines v := by
  have hole : ∀ {line name type hole : String},
      (line = definition name type ("\x7b\x7b " ++ hole ++ " \x7d\x7d") ∧ '{' ∉ name.toList ∧ '{' ∉ type.toList ∧
        '}' ∉ hole.toList ∧ trimBlanks (" " ++ hole ++ " ") = hole) →
      fill (literalOf v) line = definition name type (literalOf v hole) := by
    intro line name type hole h
    obtain ⟨hline, hname, htype, hhole, hblanks⟩ := h
    rw [hline, fill_definition (literalOf v) hname htype hhole hblanks]
  have hn : fill (literalOf v) "Definition N : Z := \x7b\x7b n \x7d\x7d." = definition "N" "Z" (literalOf v "n") :=
    hole (by decide)
  have h0 : fill (literalOf v) "Definition p_psi0 : R := \x7b\x7b p_psi0 \x7d\x7d."
      = definition "p_psi0" "R" (literalOf v "p_psi0") := hole (by decide)
  have h1 : fill (literalOf v) "Definition p_psi1 : R := \x7b\x7b p_psi1 \x7d\x7d."
      = definition "p_psi1" "R" (literalOf v "p_psi1") := hole (by decide)
  have hl : fill (literalOf v) "Definition delta_ph_lower : R := \x7b\x7b delta_ph_lower \x7d\x7d."
      = definition "delta_ph_lower" "R" (literalOf v "delta_ph_lower") := hole (by decide)
  have hu : fill (literalOf v) "Definition delta_ph_upper : R := \x7b\x7b delta_ph_upper \x7d\x7d."
      = definition "delta_ph_upper" "R" (literalOf v "delta_ph_upper") := hole (by decide)
  have he : fill (literalOf v) "Definition epsilon : R := \x7b\x7b epsilon \x7d\x7d."
      = definition "epsilon" "R" (literalOf v "epsilon") := hole (by decide)
  simp only [template, lines, List.map_cons, List.map_nil, List.cons.injEq, hn, h0, h1, hl, hu, he, literalOf,
    true_and, and_true]
  -- the lines that are left have no hole
  and_intros
  all_goals exact fill_plain _ rfl (by decide)

/-! ## The characters of the text -/

def noBrace (cs : List Char) : Bool := cs.all fun c => c != '{' && c != '}'

theorem noBrace_append (l r : List Char) : noBrace (l ++ r) = (noBrace l && noBrace r) := List.all_append

theorem noBrace_cons (c : Char) (cs : List Char) : noBrace (c :: cs) = (c != '{' && c != '}' && noBrace cs) :=
  List.all_cons

/-- Text without a brace has no pair of them. -/
theorem not_infix_of_noBrace {cs : List Char} (h : noBrace cs = true) : ¬['{', '{'] <:+: cs ∧ ¬['}', '}'] <:+: cs := by
  have hc := List.all_eq_true.1 h
  constructor <;> intro hpair
  · cases hc '{' (hpair.subset List.mem_cons_self)
  · cases hc '}' (hpair.subset List.mem_cons_self)

theorem noBrace_digits {ds : List Char} (h : AllDigits ds) : noBrace ds = true := by
  rw [noBrace, List.all_eq_true]
  intro c hc
  exact forall_isDigit (P := fun c => (c != '{' && c != '}') = true) (by decide) (h c hc)

theorem noBrace_numberText {x : Binary64} (hx : x.isFinite = true) : noBrace (numberText x).toList = true := by
  obtain ⟨r, htext, -⟩ := numberText_finite hx
  obtain ⟨whole, part, hparts, hwhole, hpart, -⟩ := fixedText_parts (show 0 < realPlaces by decide) (x.lt .zero) r
  have hsign : noBrace (minusSign (x.lt .zero)) = true := by
    cases x.lt .zero <;> decide
  rw [htext, hparts, noBrace_append, noBrace_append, noBrace_cons, hsign, noBrace_digits hwhole.digits,
    noBrace_digits hpart]
  decide

theorem noBrace_definition (name type : String) {literal : String} (hnames : noBrace (name.toList ++ type.toList) = true)
    (hliteral : noBrace literal.toList = true) : noBrace (definition name type literal).toList = true := by
  rw [noBrace_append, Bool.and_eq_true] at hnames
  have hdefined : noBrace " := ".toList = true := by decide
  rw [toList_definition, noBrace_cons, noBrace_append, noBrace_append, noBrace_cons, noBrace_append, noBrace_append,
    noBrace_append, noBrace_append, hnames.1, hnames.2, hliteral, hdefined]
  decide

theorem noBrace_lines {v : InstanceValues} (hf : ∀ r ∈ reals v, r.2.isFinite = true) :
    ∀ l ∈ lines v, noBrace l.toList = true := by
  have hcount : noBrace (intLiteral v.n).toList = true := by
    rw [intLiteral, String.toList_append, String.toList_append, noBrace_append, noBrace_append,
      noBrace_digits (allDigits_toString v.n)]
    decide
  have hreal : ∀ r ∈ reals v, noBrace (realLiteral r.2).toList = true := by
    intro r hr
    rw [realLiteral_toList, noBrace_append, noBrace_cons, noBrace_numberText (hf r hr)]
    decide
  have hplain : ∀ {s : String} {cs : List Char}, s = String.ofList cs → noBrace cs = true → noBrace s.toList = true := by
    intro s cs hs hcs
    rw [hs, String.toList_ofList, hcs]
  simp only [reals, List.forall_mem_cons] at hreal
  obtain ⟨h0, h1, hl, hu, he, -⟩ := hreal
  have d0 := noBrace_definition "p_psi0" "R" (by decide) h0
  have d1 := noBrace_definition "p_psi1" "R" (by decide) h1
  have dl := noBrace_definition "delta_ph_lower" "R" (by decide) hl
  have du := noBrace_definition "delta_ph_upper" "R" (by decide) hu
  have de := noBrace_definition "epsilon" "R" (by decide) he
  have dn := noBrace_definition "N" "Z" (by decide) hcount
  simp only [lines, List.forall_mem_cons, dn, d0, d1, dl, du, de, true_and]
  and_intros
  any_goals exact hplain rfl (by decide)
  exact List.forall_mem_nil _

/-- Lines without a brace are a text without one. -/
theorem noBrace_joinLines {ls : List String} (h : ∀ l ∈ ls, noBrace l.toList = true) :
    noBrace (joinLines ls).toList = true := by
  induction ls with
  | nil => rfl
  | cons l ls ih =>
    rw [List.forall_mem_cons] at h
    rw [toList_joinLines_cons, noBrace_append, noBrace_cons, h.1, ih h.2]
    decide

/-- The text ends in one line end. -/
theorem ends_joinLines (v : InstanceValues) : ∃ cs, (joinLines (lines v)).toList = cs ++ ['.', '\n'] := by
  have hlast : lines v = (lines v).dropLast ++ ["Qed."] := rfl
  refine ⟨(joinLines (lines v).dropLast).toList ++ ['Q', 'e', 'd'], ?_⟩
  rw [hlast]
  simp [joinLines, String.toList_join]

/-! ## The constants that a text defines -/

/-- What a constant is defined as. -/
inductive Meaning where
  | count (n : Nat)
  | real (q : ℚ)
  deriving DecidableEq

/-- What a literal says as one of this type. -/
def Meaning.ofLiteral? (type literal : String) : Option Meaning :=
  match type with
  | "Z" => ((literalBody? 'Z' literal.toList).bind fun ds => nat? (String.ofList ds)).map .count
  | "R" => (literalValue? literal).map .real
  | _ => none

/-- What stands before the first blank, and what stands after it. -/
def word (cs : List Char) : List Char × List Char := (cs.takeWhile (· ≠ ' '), (cs.dropWhile (· ≠ ' ')).drop 1)

theorem word_append {w : List Char} (h : ' ' ∉ w) (rest : List Char) : word (w ++ ' ' :: rest) = (w, rest) := by
  have hw : ∀ c ∈ w, decide (c ≠ ' ') = true := by
    intro c hc
    rw [decide_eq_true_eq]
    rintro rfl
    exact h hc
  rw [word, List.takeWhile_append_of_pos hw, List.dropWhile_append_of_pos hw]
  simp

def isDefinition (line : String) : Bool := "Definition ".toList.isPrefixOf line.toList

/-- The name that a line defines, and what as. -/
def definition? (line : String) : Option (String × Meaning) := do
  let (_, rest) := word line.toList
  let (name, rest) := word rest
  let (type, rest) := word (← ": ".toList.isPrefixOf? rest)
  let literal ← ['.'].isSuffixOf? (← ":= ".toList.isPrefixOf? rest)
  let meaning ← Meaning.ofLiteral? (String.ofList type) (String.ofList literal)
  return (String.ofList name, meaning)

/-- All that a text defines, in order, if every line that begins as a definition is one. -/
def definitions? (source : String) : Option (List (String × Meaning)) :=
  ((sourceLines source).filter isDefinition).mapM definition?

theorem isDefinition_definition (name type literal : String) : isDefinition (definition name type literal) = true := by
  have hkeyword : "Definition ".toList = 'D' :: "efinition ".toList := by decide
  rw [isDefinition, toList_definition, List.isPrefixOf_iff_prefix, hkeyword, ← List.cons_append]
  exact List.prefix_append _ _

theorem definition?_definition {name type literal : String} (hname : ' ' ∉ name.toList) (htype : ' ' ∉ type.toList) :
    definition? (definition name type literal) = (Meaning.ofLiteral? type literal).map (Prod.mk name) := by
  have hkeyword : 'D' :: "efinition ".toList = "Definition".toList ++ [' '] := by decide
  have hdefined : " := ".toList = ' ' :: ":= ".toList := by decide
  have hline : (definition name type literal).toList = "Definition".toList ++ ' ' :: (name.toList ++ ' ' ::
      (": ".toList ++ (type.toList ++ ' ' :: (":= ".toList ++ (literal.toList ++ ['.']))))) := by
    rw [toList_definition, ← List.cons_append, hkeyword, hdefined]
    simp only [List.append_assoc, List.cons_append, List.nil_append]
  simp only [definition?, hline, word_append (show ' ' ∉ "Definition".toList by decide), word_append hname,
    word_append htype, isPrefixOf?_append, isSuffixOf?_append, Option.bind_eq_bind, Option.bind_some,
    String.ofList_toList]
  cases Meaning.ofLiteral? type literal <;> rfl

theorem ofLiteral?_intLiteral (n : Nat) : Meaning.ofLiteral? "Z" (intLiteral n) = some (.count n) := by
  have hliteral : (intLiteral n).toList = '(' :: (toString n).toList ++ [')', '%', 'Z'] := by
    rw [intLiteral, String.toList_append, String.toList_append]
    rfl
  have hread : nat? (toString n) = some n := by
    have hcount := CountText.mk .none (toString_ne_nil n) (allDigits_toString n)
    rw [List.nil_append, natOfDigits_toString] at hcount
    exact nat?_eq_some_iff.2 hcount
  simp only [Meaning.ofLiteral?, hliteral, literalBody?_append, Option.bind_some, String.ofList_toList, hread,
    Option.map_some]

theorem ofLiteral?_realLiteral {x : Binary64} (hx : x.isFinite = true) :
    Meaning.ofLiteral? "R" (realLiteral x) = some (.real (x.fixedValue 10)) := by
  simp only [Meaning.ofLiteral?, literalValue?_realLiteral hx, Option.map_some]
  rfl

/-- A filter is known from what it says of each item. -/
theorem filter_eq_zip {α : Type} (p : α → Bool) (xs : List α) :
    xs.filter p = ((xs.zip (xs.map p)).filter Prod.snd).map Prod.fst := by
  induction xs with
  | nil => rfl
  | cons x xs ih =>
    cases hx : p x <;> simp [hx, ih]

theorem isDefinition_plain {line : String} {cs : List Char} (hline : line = String.ofList cs)
    (h : isPlain cs = true) : isDefinition line = false := by
  have hkeyword : "Definition ".toList = 'D' :: "efinition ".toList := by decide
  have hchars : line.toList = cs := by rw [hline, String.toList_ofList]
  rw [isDefinition, hkeyword, hchars]
  cases cs with
  | nil => rfl
  | cons c cs =>
    have hc : 'D' ≠ c := by
      intro e
      simp [isPlain, ← e] at h
    rw [List.isPrefixOf_cons_cons, beq_eq_false_iff_ne.2 hc, Bool.false_and]

/-- A line of an instance that begins like a definition is one. -/
theorem isDefinition_eq_head (v : InstanceValues) :
    ∀ l ∈ lines v, isDefinition l = (l.toList.head? == some 'D') := by
  have hdefinition : ∀ name type literal : String, isDefinition (definition name type literal)
      = ((definition name type literal).toList.head? == some 'D') := by
    intro name type literal
    rw [isDefinition_definition, head?_definition]
    rfl
  refine forall_lines v ?_ (hdefinition _ _ _) (fun r _ => hdefinition _ _ _)
  intro line cs hline hplain
  have hhead : (cs.head? == some 'D') = false := by
    simp only [isPlain, Bool.and_eq_true, bne_iff_ne] at hplain
    exact beq_eq_false_iff_ne.2 hplain.2
  rw [isDefinition_plain hline hplain, head?_literal hline rfl, hhead]

/-- Of the lines of an instance these are definitions. -/
theorem filter_lines (v : InstanceValues) : (lines v).filter isDefinition =
    definition "N" "Z" (intLiteral v.n) :: (reals v).map fun r => definition r.1 "R" (realLiteral r.2) := by
  have hmarks : (lines v).map (fun l => l.toList.head? == some 'D')
      = ((lines v).map fun l => l.toList.head?).map (· == some 'D') := by
    rw [List.map_map]
    rfl
  rw [List.filter_congr (isDefinition_eq_head v), filter_eq_zip, hmarks, heads_lines]
  rfl

/-- An instance defines these constants and no other, each once. -/
def constants (v : InstanceValues) : List (String × Meaning) :=
  [("N", .count v.n), ("p_psi0", .real (v.prior0.fixedValue 10)), ("p_psi1", .real (v.prior1.fixedValue 10)),
    ("delta_ph_lower", .real (v.lower.fixedValue 10)), ("delta_ph_upper", .real (v.upper.fixedValue 10)),
    ("epsilon", .real (v.epsilon.fixedValue 10))]

theorem definitions?_lines {v : InstanceValues} (hf : ∀ r ∈ reals v, r.2.isFinite = true) :
    definitions? (joinLines (lines v)) = some (constants v) := by
  have hreal : ∀ r ∈ reals v, definition? (definition r.1 "R" (realLiteral r.2))
      = some (r.1, .real (r.2.fixedValue 10)) := by
    intro r hr
    rw [definition?_definition (name_of_mem hr).1 (by decide), ofLiteral?_realLiteral (hf r hr), Option.map_some]
  have hcount : definition? (definition "N" "Z" (intLiteral v.n)) = some ("N", .count v.n) := by
    rw [definition?_definition (by decide) (by decide), ofLiteral?_intLiteral, Option.map_some]
  simp only [reals, List.forall_mem_cons] at hreal
  obtain ⟨h0, h1, hl, hu, he, -⟩ := hreal
  rw [definitions?, sourceLines_joinLines (newline_not_mem_lines hf), filter_lines]
  simp only [reals, List.map_cons, List.map_nil, List.mapM_cons, List.mapM_nil, hcount, h0, h1, hl, hu, he]
  rfl

/-! ## The first real that cannot be written -/

/-- The first of the five reals that is no finite number, under its name. -/
inductive FirstNotFinite (v : InstanceValues) : NotFinite → Prop
  | prior0 : v.prior0.isFinite = false → FirstNotFinite v ⟨"p_psi0", v.prior0⟩
  | prior1 : v.prior0.isFinite = true → v.prior1.isFinite = false → FirstNotFinite v ⟨"p_psi1", v.prior1⟩
  | lower : v.prior0.isFinite = true → v.prior1.isFinite = true → v.lower.isFinite = false →
      FirstNotFinite v ⟨"delta_ph_lower", v.lower⟩
  | upper : v.prior0.isFinite = true → v.prior1.isFinite = true → v.lower.isFinite = true →
      v.upper.isFinite = false → FirstNotFinite v ⟨"delta_ph_upper", v.upper⟩
  | epsilon : v.prior0.isFinite = true → v.prior1.isFinite = true → v.lower.isFinite = true →
      v.upper.isFinite = true → v.epsilon.isFinite = false → FirstNotFinite v ⟨"epsilon", v.epsilon⟩

/-- The reals are looked at in this order. -/
theorem notFinite?_eq (v : InstanceValues) : notFinite? v =
    if v.prior0.isFinite = false then some ⟨"p_psi0", v.prior0⟩
    else if v.prior1.isFinite = false then some ⟨"p_psi1", v.prior1⟩
    else if v.lower.isFinite = false then some ⟨"delta_ph_lower", v.lower⟩
    else if v.upper.isFinite = false then some ⟨"delta_ph_upper", v.upper⟩
    else if v.epsilon.isFinite = false then some ⟨"epsilon", v.epsilon⟩
    else none := by
  unfold notFinite? reals
  split_ifs <;> simp [*]

theorem notFinite?_eq_some {v : InstanceValues} {e : NotFinite} : notFinite? v = some e ↔ FirstNotFinite v e := by
  constructor
  · intro h
    rw [notFinite?_eq] at h
    split_ifs at h with h0 h1 h2 h3 h4 <;> cases h
    · exact .prior0 h0
    · exact .prior1 (eq_true_of_ne_false h0) h1
    · exact .lower (eq_true_of_ne_false h0) (eq_true_of_ne_false h1) h2
    · exact .upper (eq_true_of_ne_false h0) (eq_true_of_ne_false h1) (eq_true_of_ne_false h2) h3
    · exact .epsilon (eq_true_of_ne_false h0) (eq_true_of_ne_false h1) (eq_true_of_ne_false h2)
        (eq_true_of_ne_false h3) h4
  · intro h
    cases h <;> simp [notFinite?_eq, *]

theorem render_eq_error {v : InstanceValues} {e : NotFinite} : render v = .error e ↔ FirstNotFinite v e := by
  rw [← notFinite?_eq_some]
  unfold render
  cases notFinite? v <;> simp

theorem exists_firstNotFinite {v : InstanceValues} : (∃ e, FirstNotFinite v e) ↔ ∃ r ∈ reals v, r.2.isFinite = false := by
  simp only [← notFinite?_eq_some, ← Option.isSome_iff_exists, notFinite?, Option.isSome_map, List.find?_isSome,
    Bool.not_eq_true']

/-! ## Every instance -/

/-- The same constants are the same count, and the same reals with ten places. -/
theorem constants_eq {v w : InstanceValues} : constants w = constants v ↔
    w.n = v.n ∧ w.prior0.fixedValue 10 = v.prior0.fixedValue 10 ∧ w.prior1.fixedValue 10 = v.prior1.fixedValue 10 ∧
      w.lower.fixedValue 10 = v.lower.fixedValue 10 ∧ w.upper.fixedValue 10 = v.upper.fixedValue 10 ∧
      w.epsilon.fixedValue 10 = v.epsilon.fixedValue 10 := by
  simp [constants]

/-- Values have a text unless one of the reals is no finite number; then the first such real is
    named. The text is the template, filled in. It ends in one line end and has no pair of braces,
    and it defines six constants: the count, and the reals with ten places. So values of one text
    have one count, and are the same with ten places. -/
theorem render_spec (v : InstanceValues) :
    (∀ e, render v = .error e ↔ FirstNotFinite v e) ∧
    ((∃ e, render v = .error e) ↔ v.prior0.isFinite = false ∨ v.prior1.isFinite = false ∨ v.lower.isFinite = false ∨
      v.upper.isFinite = false ∨ v.epsilon.isFinite = false) ∧
    ∀ text, render v = .ok text →
      text = joinLines (template.map (fill (literalOf v))) ∧
      (∃ cs c, text.toList = cs ++ [c, '\n'] ∧ c ≠ '\n') ∧
      ¬['{', '{'] <:+: text.toList ∧ ¬['}', '}'] <:+: text.toList ∧
      definitions? text = some (constants v) ∧
      ∀ w, render w = .ok text → w.n = v.n ∧ w.prior0.fixedValue 10 = v.prior0.fixedValue 10 ∧
        w.prior1.fixedValue 10 = v.prior1.fixedValue 10 ∧ w.lower.fixedValue 10 = v.lower.fixedValue 10 ∧
        w.upper.fixedValue 10 = v.upper.fixedValue 10 ∧ w.epsilon.fixedValue 10 = v.epsilon.fixedValue 10 := by
  have hread : ∀ {u : InstanceValues} {text : String}, render u = .ok text → definitions? text = some (constants u) := by
    intro u text hu
    obtain ⟨rfl, hf⟩ := render_eq_ok hu
    exact definitions?_lines hf
  refine ⟨fun e => render_eq_error, ?_, ?_⟩
  · simp only [render_eq_error, exists_firstNotFinite, reals, List.mem_cons, List.not_mem_nil, or_false,
      exists_eq_or_imp, exists_eq_left]
  · intro text hv
    obtain ⟨htext, hf⟩ := render_eq_ok hv
    obtain ⟨cs, hend⟩ := ends_joinLines v
    have hbraces : noBrace text.toList = true := by
      rw [htext]
      exact noBrace_joinLines (noBrace_lines hf)
    obtain ⟨hopen, hclose⟩ := not_infix_of_noBrace hbraces
    refine ⟨?_, ⟨cs, '.', ?_, by decide⟩, hopen, hclose, hread hv, ?_⟩
    · rw [htext, map_fill_template]
    · rw [htext, hend]
    · intro w hw
      exact constants_eq.1 (Option.some.inj ((hread hw).symm.trans (hread hv)))

end PhaseCert.Instance
