/-
  PhaseCert.Proofs.Instance.Reading — reading an instance back from its text.

  What a proof assistant takes from the text: its lines, and the literals of the real constants
  that they define, each as it is written (`literal?`) and as the rational it stands for
  (`constant?`). The text of an instance gives back, for each of its reals, its literal and the
  decimal that the real is shown as (`literal?_lines`, `constant?_lines`).
-/
import PhaseCert.Instance
import PhaseCert.Proofs.Decimal.FixedPlaces

namespace PhaseCert.Instance

/-! ## Lines -/

/-- The lines of a text that have their end. -/
def textLines : List Char → List (List Char)
  | [] => []
  | c :: cs =>
    if c = '\n' then [] :: textLines cs
    else
      match textLines cs with
      | [] => []
      | l :: ls => (c :: l) :: ls

def sourceLines (source : String) : List String := (textLines source.toList).map String.ofList

theorem textLines_append {l : List Char} (h : '\n' ∉ l) (rest : List Char) :
    textLines (l ++ '\n' :: rest) = l :: textLines rest := by
  induction l with
  | nil => simp [textLines]
  | cons c l ih =>
    rw [List.mem_cons, not_or] at h
    rw [List.cons_append, textLines, if_neg (fun e => h.1 e.symm), ih h.2]

theorem toList_joinLines_cons (l : String) (ls : List String) :
    (joinLines (l :: ls)).toList = l.toList ++ '\n' :: (joinLines ls).toList := by
  simp [joinLines, String.toList_join]

/-- Lines that are joined are given back, if no line has a line end in it. -/
theorem sourceLines_joinLines {ls : List String} (h : ∀ l ∈ ls, '\n' ∉ l.toList) : sourceLines (joinLines ls) = ls := by
  induction ls with
  | nil => rfl
  | cons l ls ih =>
    have hl : '\n' ∉ l.toList := h l List.mem_cons_self
    have ih := ih fun l' hl' => h l' (List.mem_cons_of_mem _ hl')
    unfold sourceLines at ih ⊢
    rw [toList_joinLines_cons, textLines_append hl, List.map_cons, ih, String.ofList_toList]

/-! ## Constants -/

/-- The head of the definition of a real constant. -/
def definitionHead (name : String) : List Char := "Definition ".toList ++ (name.toList ++ " : R := (".toList)

theorem definitionHead_eq (name : String) :
    definitionHead name = 'D' :: ("efinition ".toList ++ (name.toList ++ ' ' :: ": R := (".toList)) := by
  unfold definitionHead
  simp

/-- The literal in the definition of this real constant, if the line is that. -/
def literalIn? (name line : String) : Option (List Char) := do
  let rest ← (definitionHead name).isPrefixOf? line.toList
  ")%R.".toList.isSuffixOf? rest

/-- The literal of a real constant that a text defines, as it is written. -/
def literal? (source name : String) : Option String :=
  (sourceLines source).findSome? fun line => (literalIn? name line).bind fun cs => some ("(" ++ String.ofList cs ++ ")%R")

/-- The value of a real constant that a text defines. -/
def constant? (source name : String) : Option ℚ :=
  (sourceLines source).findSome? fun line => (literalIn? name line).bind Numeral.value?

theorem isPrefixOf?_append (l r : List Char) : l.isPrefixOf? (l ++ r) = some r := by
  induction l with
  | nil => cases r <;> rfl
  | cons c l ih => simp [List.isPrefixOf?, ih]

theorem isSuffixOf?_append (l r : List Char) : r.isSuffixOf? (l ++ r) = some l := by
  rw [List.isSuffixOf?, List.reverse_append, isPrefixOf?_append]
  simp

/-- A prefix that goes on after a common part. -/
theorem isPrefixOf?_common (l r s : List Char) : (l ++ r).isPrefixOf? (l ++ s) = r.isPrefixOf? s := by
  induction l with
  | nil => rfl
  | cons c l ih => simp [List.isPrefixOf?, ih]

/-- A word and a blank are a prefix only of that word and a blank. -/
theorem isPrefixOf?_word {w w' : List Char} (h : ' ' ∉ w) (h' : ' ' ∉ w') (hne : w ≠ w') (r s : List Char) :
    (w ++ ' ' :: r).isPrefixOf? (w' ++ ' ' :: s) = none := by
  induction w generalizing w' with
  | nil =>
    cases w' with
    | nil => exact absurd rfl hne
    | cons c w' =>
      rw [List.mem_cons, not_or] at h'
      simp [List.isPrefixOf?, h'.1]
  | cons c w ih =>
    rw [List.mem_cons, not_or] at h
    cases w' with
    | nil => simp [List.isPrefixOf?, Ne.symm h.1]
    | cons c' w' =>
      rw [List.mem_cons, not_or] at h'
      by_cases e : c = c'
      · subst e
        simp only [List.cons_append, List.isPrefixOf?, BEq.rfl, if_true]
        exact ih h.2 h'.2 (fun e => hne (by rw [e]))
      · simp [List.isPrefixOf?, e]

/-! ## The lines of an instance -/

/-- A line that defines nothing. -/
def isPlain (l : List Char) : Bool := !l.contains '\n' && l.head? != some 'D'

/-- What holds of every plain line, of the integer's definition and of the reals' definitions
    holds of every line of an instance. -/
theorem forall_lines {P : String → Prop} (v : InstanceValues)
    (hplain : ∀ {s : String} {l : List Char}, s = String.ofList l → isPlain l = true → P s)
    (hint : P (definition "N" "Z" (intLiteral v.n)))
    (hreal : ∀ r ∈ reals v, P (definition r.1 "R" (realLiteral r.2))) : ∀ l ∈ lines v, P l := by
  simp only [reals, List.forall_mem_cons] at hreal
  obtain ⟨h0, h1, h2, h3, h4, -⟩ := hreal
  simp only [lines, List.forall_mem_cons]
  refine ⟨?_, ?_, ?_, ?_, ?_, ?_, ?_, ?_, ?_, hint, h0, h1, ?_, ?_, h2, h3, ?_, ?_, h4,
    ?_, ?_, ?_, ?_, ?_, ?_, ?_, ?_, ?_, ?_, ?_, ?_, List.forall_mem_nil _⟩
  all_goals exact hplain rfl (by decide)

theorem name_of_mem {v : InstanceValues} {r : String × Binary64} (h : r ∈ reals v) :
    ' ' ∉ r.1.toList ∧ '\n' ∉ r.1.toList := by
  have hn : r.1 ∈ ["p_psi0", "p_psi1", "delta_ph_lower", "delta_ph_upper", "epsilon"] :=
    List.mem_map_of_mem (f := Prod.fst) h
  revert hn
  generalize r.1 = name
  intro hn
  simp only [List.mem_cons, List.not_mem_nil, or_false] at hn
  rcases hn with rfl | rfl | rfl | rfl | rfl <;> decide

/-- A name belongs to one real. -/
theorem eq_of_mem {v : InstanceValues} {name : String} {x y : Binary64} (hx : (name, x) ∈ reals v)
    (hy : (name, y) ∈ reals v) : x = y := by
  simp only [reals, List.mem_cons, List.not_mem_nil, or_false, Prod.mk.injEq] at hx hy
  rcases hx with ⟨rfl, rfl⟩ | ⟨rfl, rfl⟩ | ⟨rfl, rfl⟩ | ⟨rfl, rfl⟩ | ⟨rfl, rfl⟩ <;> simp at hy <;> exact hy.symm

/-! ## What is read back -/

/-- The number in a real literal. -/
def numberText (x : Binary64) : String := fixedText realPlaces (if x.place? = some 0 then .zero else x)

theorem realLiteral_eq (x : Binary64) : realLiteral x = "(" ++ numberText x ++ ")%R" := rfl

/-- Only the negative zero is written otherwise than it is. -/
theorem numberText_eq {x : Binary64} (h : x ≠ Binary64.zero.neg) : numberText x = fixedText realPlaces x := by
  unfold numberText
  by_cases h0 : x.place? = some 0
  · rw [if_pos h0, (Binary64.eq_zero_of_place h0).resolve_right h]
  · rw [if_neg h0]

/-- Written without its sign or with it, a zero has the same value. -/
theorem value?_numberText {x : Binary64} (hx : x.isFinite = true) :
    Numeral.value? (numberText x).toList = some (x.fixedValue realPlaces) := by
  unfold numberText
  split
  · rename_i h0
    obtain ⟨p, hp, -, hu⟩ := Binary64.isFinite_iff.1 hx
    rw [h0, Option.some.injEq] at hp
    have hz : x.units = 0 := by rw [hu, ← hp]; rfl
    rw [value?_fixedText (by decide) Binary64.zero_isFinite, Binary64.fixedValue_zero,
      Binary64.fixedValue_eq (k := 0) (by simp [Binary64.toRat, hz])]
    simp [Binary64.toRat, hz]
  · exact value?_fixedText (by decide) hx

theorem numberText_chars {x : Binary64} (hx : x.isFinite = true) : '\n' ∉ (numberText x).toList := by
  have h : ∀ {y : Binary64}, y.isFinite = true → '\n' ∉ (fixedText realPlaces y).toList := by
    intro y hy hm
    have hc := fixedText_chars (by decide) hy _ hm
    revert hc
    decide
  unfold numberText
  split
  · exact h Binary64.zero_isFinite
  · exact h hx

theorem toList_definition (name type literal : String) :
    (definition name type literal).toList = 'D' :: ("efinition ".toList ++ (name.toList ++ ' ' ::
      (": ".toList ++ (type.toList ++ (" := ".toList ++ (literal.toList ++ ['.'])))))) := by
  have hkeyword : "Definition ".toList = 'D' :: "efinition ".toList := by decide
  have hcolon : " : ".toList = ' ' :: ": ".toList := by decide
  have hstop : ".".toList = ['.'] := by decide
  unfold definition
  simp only [String.toList_append, hkeyword, hcolon, hstop, List.cons_append, List.append_assoc]

theorem newline_not_mem_lines {v : InstanceValues} (hf : ∀ r ∈ reals v, r.2.isFinite = true) :
    ∀ l ∈ lines v, '\n' ∉ l.toList := by
  refine forall_lines (P := fun l => '\n' ∉ l.toList) v ?_ ?_ ?_
  · intro s l h hp
    rw [h, String.toList_ofList]
    intro hm
    simp [isPlain, hm] at hp
  · have hn : '\n' ∉ (toString v.n).toList := fun hm => by
      cases Numeral.allDigits_toString v.n _ hm
    rw [toList_definition, intLiteral, String.toList_append, String.toList_append]
    simp only [List.mem_cons, List.mem_append, hn]
    simp
  · intro r hr
    have h1 := (name_of_mem hr).2
    have h2 := numberText_chars (hf r hr)
    simp [toList_definition, realLiteral_eq, h1, h2]

theorem literalIn?_of_none {name line : String} (h : (definitionHead name).isPrefixOf? line.toList = none) :
    literalIn? name line = none := by
  unfold literalIn?
  rw [h, Option.bind_eq_bind, Option.bind_none]

theorem literalIn?_plain {s : String} {l : List Char} (h : s = String.ofList l) (hp : isPlain l = true) (name : String) :
    literalIn? name s = none := by
  apply literalIn?_of_none
  rw [h, String.toList_ofList, definitionHead_eq]
  cases l with
  | nil => rfl
  | cons c l =>
    have hc : 'D' ≠ c := by
      intro e
      simp [isPlain, ← e] at hp
    simp only [List.isPrefixOf?, beq_eq_false_iff_ne.2 hc, Bool.false_eq_true, if_false]

theorem literalIn?_int {name : String} (hn : ' ' ∉ name.toList) (n : Nat) :
    literalIn? name (definition "N" "Z" (intLiteral n)) = none := by
  apply literalIn?_of_none
  rw [toList_definition, definitionHead_eq, ← List.cons_append, ← List.cons_append, isPrefixOf?_common]
  by_cases e : name.toList = "N".toList
  · rw [e, isPrefixOf?_common]
    simp [List.isPrefixOf?]
  · exact isPrefixOf?_word hn (by decide) e _ _

theorem literalIn?_real {name name' : String} (hn : ' ' ∉ name.toList) (hn' : ' ' ∉ name'.toList) (x : Binary64) :
    literalIn? name (definition name' "R" (realLiteral x)) = if name' = name then some (numberText x).toList else none := by
  by_cases e : name' = name
  · have hd : (definition name "R" (realLiteral x)).toList
        = definitionHead name ++ ((numberText x).toList ++ ")%R.".toList) := by
      rw [definitionHead_eq]
      simp [toList_definition, realLiteral_eq]
    rw [e, if_pos rfl]
    unfold literalIn?
    rw [hd, isPrefixOf?_append, Option.bind_eq_bind, Option.bind_some, isSuffixOf?_append]
  · rw [if_neg e]
    apply literalIn?_of_none
    rw [toList_definition, definitionHead_eq, ← List.cons_append, ← List.cons_append, isPrefixOf?_common]
    exact isPrefixOf?_word hn hn' (fun h => e (String.toList_inj.1 h).symm) _ _

theorem findSome?_eq_some {α β : Type} {f : α → Option β} {ls : List α} {b : β}
    (h : ∀ l ∈ ls, f l = none ∨ f l = some b) {l : α} (hl : l ∈ ls) (hb : f l = some b) : ls.findSome? f = some b := by
  induction ls with
  | nil => cases hl
  | cons a ls ih =>
    rw [List.findSome?_cons]
    rcases h a List.mem_cons_self with ha | ha
    · rw [ha]
      rcases List.mem_cons.1 hl with rfl | hl
      · rw [ha] at hb
        cases hb
      · exact ih (fun x hx => h x (List.mem_cons_of_mem _ hx)) hl
    · rw [ha]

theorem definition_mem {v : InstanceValues} {r : String × Binary64} (h : r ∈ reals v) :
    definition r.1 "R" (realLiteral r.2) ∈ lines v := by
  simp only [reals, List.mem_cons, List.not_mem_nil, or_false] at h
  rcases h with rfl | rfl | rfl | rfl | rfl <;> simp only [lines, List.mem_cons, true_or, or_true]

/-- What is taken from the definition of a real is taken from its number. -/
theorem findSome?_lines {α : Type} {v : InstanceValues} (hf : ∀ r ∈ reals v, r.2.isFinite = true) {name : String}
    {x : Binary64} (hm : (name, x) ∈ reals v) {take : List Char → Option α} {a : α}
    (ha : take (numberText x).toList = some a) :
    (sourceLines (joinLines (lines v))).findSome? (fun line => (literalIn? name line).bind take) = some a := by
  have hn := (name_of_mem hm).1
  have hv : (literalIn? name (definition name "R" (realLiteral x))).bind take = some a := by
    rw [literalIn?_real hn hn, if_pos rfl]
    exact ha
  rw [sourceLines_joinLines (newline_not_mem_lines hf)]
  refine findSome?_eq_some (forall_lines (P := fun l => (literalIn? name l).bind take = none ∨
    (literalIn? name l).bind take = some a) v ?_ ?_ ?_) (definition_mem hm) hv
  · intro s l h hp
    rw [literalIn?_plain h hp]
    exact Or.inl rfl
  · rw [literalIn?_int hn]
    exact Or.inl rfl
  · intro r hr
    by_cases e : r.1 = name
    · have : r.2 = x := eq_of_mem (e ▸ hr) hm
      rw [e, this]
      exact Or.inr hv
    · rw [literalIn?_real hn (name_of_mem hr).1, if_neg e]
      exact Or.inl rfl

/-- The text of an instance defines each real by its literal. -/
theorem literal?_lines {v : InstanceValues} (hf : ∀ r ∈ reals v, r.2.isFinite = true) {name : String} {x : Binary64}
    (hm : (name, x) ∈ reals v) : literal? (joinLines (lines v)) name = some (realLiteral x) := by
  refine findSome?_lines hf hm ?_
  rw [String.ofList_toList, realLiteral_eq]

/-- The text of an instance defines each real as the decimal that it is shown as. -/
theorem constant?_lines {v : InstanceValues} (hf : ∀ r ∈ reals v, r.2.isFinite = true) {name : String} {x : Binary64}
    (hm : (name, x) ∈ reals v) : constant? (joinLines (lines v)) name = some (x.fixedValue realPlaces) :=
  findSome?_lines hf hm (value?_numberText (hf _ hm))

end PhaseCert.Instance
