/-
  PhaseCert.Proofs.Yaml.Number — the numbers among plain scalars.

  A plain scalar that is written like a number is no word for null or for a truth value and none
  for an infinity or NaN (`numberText_ne`). The text of an integer is that integer
  (`plainTree?_intText`). The text of a float has a point or an exponent, so that it is no integer
  of any base, and it is the double that it is the text of (`plainTree?_floatText`).
-/
import PhaseCert.Proofs.Flow
import PhaseCert.Yaml.Resolution

namespace PhaseCert.Yaml

open Numeral

/-! ## Words -/

def IsNumberChar (c : Char) : Prop := c.isDigit = true ∨ c ∈ ['+', '-', '.', 'e', 'E']

instance : DecidablePred IsNumberChar := fun c =>
  inferInstanceAs (Decidable (c.isDigit = true ∨ c ∈ ['+', '-', '.', 'e', 'E']))

/-- The words that plain scalars are compared with. -/
def words : List String :=
  ["null", "Null", "NULL", "~", "true", "True", "TRUE", "false", "False", "FALSE", ".inf", ".Inf", ".INF", "+.inf",
    "+.Inf", "+.INF", "-.inf", "-.Inf", "-.INF", ".nan", ".NaN", ".NAN"]

/-- Each word has a character in it that no number has. -/
theorem numberText_ne {s : String} (h : ∀ c ∈ s.toList, IsNumberChar c) : ∀ w ∈ words, s ≠ w := by
  have hall : ∀ w ∈ words, ∃ c ∈ w.toList, ¬IsNumberChar c := by
    unfold words
    decide
  rintro w hw rfl
  obtain ⟨c, hc, hn⟩ := hall s hw
  exact hn (h c hc)

section

variable {s : String} (h : ∀ c ∈ s.toList, IsNumberChar c)

include h

theorem not_word (hne : s ≠ "") : ¬(s = "" ∨ isNullWord s = true) ∧ boolWord? s = none := by
  have hwords := numberText_ne h
  simp only [words, List.forall_mem_cons] at hwords
  simp [hne, isNullWord, boolWord?, hwords]

theorem plainTree?_whole (hne : s ≠ "") {n : Whole} (hfit : fit s = .whole n) : plainTree? s = some (.int n) := by
  obtain ⟨hempty, hbool⟩ := not_word h hne
  simp only [plainTree?, hempty, hbool, hfit, if_false]

theorem plainTree?_float (hne : s ≠ "") (hfit : fit s = .other) (hidle : hasIdleZero (sign s.toList).2 = false)
    {x : Binary64} (hfloat : float? s = some x) : plainTree? s = some (.ofReal x) := by
  obtain ⟨hempty, hbool⟩ := not_word h hne
  simp only [plainTree?, hempty, hbool, hfit, hidle, hfloat, Bool.false_eq_true, if_false]

theorem float?_number : float? s = (real? s).filter (·.isFinite) := by
  have hwords := numberText_ne h
  simp only [words, List.forall_mem_cons] at hwords
  have hinfinity : infinity? s = none := by
    simp [infinity?, hwords]
  simp [float?, hinfinity, hwords]

end

/-! ## Integers -/

theorem hexValue?_digit {c : Char} (h : c.isDigit = true) : hexValue? c = some (digitValue c) ∧ digitValue c < 10 :=
  forall_isDigit (P := fun c => hexValue? c = some (digitValue c) ∧ digitValue c < 10) (by decide) h

/-- One more digit of a number in decimal. -/
def nextDigit (n : Nat) (c : Char) : Option Nat := (hexValue? c).bind fun v => if v < 10 then some (10 * n + v) else none

theorem nextDigit_digit (n : Nat) {c : Char} (h : c.isDigit = true) : nextDigit n c = some (10 * n + digitValue c) := by
  obtain ⟨h1, h2⟩ := hexValue?_digit h
  rw [nextDigit, h1, Option.bind_some, if_pos h2]

theorem inBase?_ten {ds : List Char} (hne : ds ≠ []) : inBase? 10 ds = ds.foldlM nextDigit 0 := by
  rw [inBase?, if_neg hne]
  rfl

theorem foldlM_nextDigit {ds : List Char} (h : AllDigits ds) (n : Nat) :
    ds.foldlM nextDigit n = some (ds.foldl (fun n c => 10 * n + digitValue c) n) := by
  induction ds generalizing n with
  | nil => rfl
  | cons c ds ih =>
    rw [List.foldlM_cons, nextDigit_digit n (h c List.mem_cons_self), List.foldl_cons, Option.bind_eq_bind,
      Option.bind_some]
    exact ih (fun x hx => h x (List.mem_cons_of_mem c hx)) _

theorem inBase?_digits {ds : List Char} (h : AllDigits ds) (hne : ds ≠ []) : inBase? 10 ds = some (natOfDigits ds) := by
  rw [inBase?_ten hne, foldlM_nextDigit h]
  rfl

/-- Decimal is the base of what does not begin with a zero and a letter for another one. -/
theorem magnitude?_decimal {ds : List Char} (h : ∀ c cs, ds = '0' :: c :: cs → c ∉ ['x', 'o', 'b']) :
    magnitude? ds = if hasIdleZero ds then none else inBase? 10 ds := by
  unfold magnitude?
  split
  · exact absurd (by simp) (h _ _ rfl)
  · exact absurd (by simp) (h _ _ rfl)
  · exact absurd (by simp) (h _ _ rfl)
  · rfl

theorem magnitude?_whole {ds : List Char} (h : WholeText ds) : magnitude? ds = some (natOfDigits ds) := by
  have hidle : hasIdleZero ds = false := by
    rcases h.proper with rfl | ⟨c, cs, rfl, hne⟩
    · rfl
    · unfold hasIdleZero
      split
      · rename_i heq
        exact absurd (List.cons.inj heq).1 hne
      · rfl
  have hbase : ∀ c cs, ds = '0' :: c :: cs → c ∉ ['x', 'o', 'b'] := by
    intro c cs hc
    rcases h.proper with rfl | ⟨x, rest, rfl, hne⟩
    · cases hc
    · exact absurd (List.cons.inj hc).1 hne
  rw [magnitude?_decimal hbase, hidle, if_neg Bool.false_ne_true, inBase?_digits h.digits h.ne_nil]

/-- The text of an integer is that integer. -/
theorem plainTree?_intText (n : Whole) : plainTree? (String.ofList (Json.intText n.val)) = some (.int n) := by
  have hwhole := wholeText_toString n.val.natAbs
  have hchars : ∀ c ∈ (String.ofList (Json.intText n.val)).toList, IsNumberChar c := by
    rw [String.toList_ofList, intText_eq, List.forall_mem_append]
    refine ⟨?_, fun c hc => .inl (hwhole.digits c hc)⟩
    unfold minus
    split <;> decide
  have hne : String.ofList (Json.intText n.val) ≠ "" := by
    intro h
    have hl := congrArg String.toList h
    rw [String.toList_ofList, intText_eq] at hl
    exact hwhole.ne_nil (List.append_eq_nil_iff.1 hl).2
  have hfirst : NoSignFirst (toString n.val.natAbs).toList := by
    have h : NoSignFirst ((toString n.val.natAbs).toList ++ []) := noSignFirst_of_digits hwhole.ne_nil hwhole.digits
    rwa [List.append_nil] at h
  have hsign := sign_append (signText_minus (n.val < 0)) hfirst
  have hvalue : (if decide (n.val < 0) = true then -(n.val.natAbs : Int) else n.val.natAbs) = n.val := by
    simp only [decide_eq_true_eq]
    split <;> omega
  have hrange : Whole.ofInt? n.val = some n := by
    rw [Whole.ofInt?, dif_pos n.property]
  have hfit : fit (String.ofList (Json.intText n.val)) = .whole n := by
    simp only [fit, String.toList_ofList, intText_eq, hsign, magnitude?_whole hwhole, natOfDigits_toString, hvalue, hrange]
  exact plainTree?_whole hchars hne hfit

/-! ## Floats -/

theorem foldlM_nextDigit_none {ds : List Char} (h : ∃ c ∈ ds, ∀ n, nextDigit n c = none) (n : Nat) :
    ds.foldlM nextDigit n = none := by
  induction ds generalizing n with
  | nil =>
    obtain ⟨c, hc, -⟩ := h
    cases hc
  | cons x ds ih =>
    obtain ⟨c, hc, hnone⟩ := h
    rw [List.foldlM_cons]
    rcases List.mem_cons.1 hc with rfl | hc
    · rw [hnone n]
      rfl
    · cases nextDigit n x with
      | none => rfl
      | some m => exact ih ⟨c, hc, hnone⟩ m

theorem allDigits_of_hasIdleZero {ds : List Char} (h : hasIdleZero ds = true) : AllDigits ds := by
  unfold hasIdleZero at h
  split at h
  · intro x hx
    rcases List.mem_cons.1 hx with rfl | hx
    · rfl
    · exact List.all_eq_true.1 h x hx
  · cases h

/-- What comes after the first digits of a float: a point or the mark of an exponent. -/
theorem floatText_mark {cs : List Char} {d : Decimal} (h : FloatText cs d) :
    ∃ whole mark rest, cs = whole ++ mark :: rest ∧ WholeText whole ∧ mark ∈ ['.', 'e', 'E'] := by
  obtain ⟨hw, -, hpoint, he, hne⟩ := h
  rcases hpoint with ⟨rfl, -⟩ | ⟨rfl, rfl⟩
  · exact ⟨_, '.', _, rfl, hw, by decide⟩
  · cases he with
    | none =>
      rcases hne with h | h
      · exact absurd rfl h
      · exact absurd rfl h
    | some hm _ _ _ =>
      refine ⟨_, _, _, rfl, hw, ?_⟩
      rcases hm with rfl | rfl <;> decide

/-- A float is no integer, in decimal or in another base, and has no idle zero. -/
theorem magnitude?_float {cs : List Char} {d : Decimal} (h : FloatText cs d) :
    magnitude? cs = none ∧ hasIdleZero cs = false := by
  obtain ⟨whole, mark, rest, rfl, hw, hmark⟩ := floatText_mark h
  have hdigit : mark.isDigit = false ∧ mark ∉ ['x', 'o', 'b'] := by
    have hall : ∀ c ∈ ['.', 'e', 'E'], c.isDigit = false ∧ c ∉ ['x', 'o', 'b'] := by decide
    exact hall mark hmark
  have hnone : ∀ n, nextDigit n mark = none := by
    have hall : ∀ c ∈ ['.', 'e', 'E'], hexValue? c = none ∨ hexValue? c = some 14 := by decide
    intro n
    rw [nextDigit]
    rcases hall mark hmark with h | h <;> rw [h] <;> rfl
  have hidle : hasIdleZero (whole ++ mark :: rest) = false := by
    rw [← Bool.not_eq_true]
    intro hidle
    have := allDigits_of_hasIdleZero hidle mark (by simp)
    rw [hdigit.1] at this
    cases this
  have hbase : ∀ c cs, whole ++ mark :: rest = '0' :: c :: cs → c ∉ ['x', 'o', 'b'] := by
    intro c cs hc
    rcases hw.proper with rfl | ⟨x, ds, rfl, hne⟩
    · rw [List.singleton_append, List.cons.injEq, List.cons.injEq] at hc
      rw [← hc.2.1]
      exact hdigit.2
    · exact absurd (List.cons.inj hc).1 hne
  refine ⟨?_, hidle⟩
  rw [magnitude?_decimal hbase, hidle, if_neg Bool.false_ne_true, inBase?_ten (by simp),
    foldlM_nextDigit_none ⟨mark, by simp, hnone⟩]

/-- The text of a float is that float. -/
theorem plainTree?_floatText (x : Finite64) : plainTree? (String.ofList (Json.floatText x.val)) = some (.float x) := by
  obtain ⟨x, hx⟩ := x
  cases x with
  | nan => cases hx
  | infinite s => cases hx
  | finite s r =>
    obtain ⟨cs, d, htext, hfloat, hd⟩ := floatText_eq s r
    obtain ⟨hmagnitude, hidle⟩ := magnitude?_float hfloat
    have hdecimal := hfloat.decimalText (signText_minus s)
    have hchars : ∀ c ∈ (String.ofList (Json.floatText (.finite s r))).toList, IsNumberChar c := by
      rw [String.toList_ofList, htext]
      exact decimalText_chars hdecimal
    obtain ⟨whole, mark, rest, hcs, hw, -⟩ := floatText_mark hfloat
    have hne : String.ofList (Json.floatText (.finite s r)) ≠ "" := by
      intro h
      have hl := congrArg String.toList h
      rw [String.toList_ofList, htext, hcs] at hl
      simp at hl
    have hsign : sign (Json.floatText (.finite s r)) = (s, cs) := by
      rw [htext, hcs]
      exact sign_append (signText_minus s) (noSignFirst_of_digits hw.ne_nil hw.digits)
    have hfit : fit (String.ofList (Json.floatText (.finite s r))) = .other := by
      simp only [fit, String.toList_ofList, hsign, hmagnitude]
    have hreal : real? (String.ofList (Json.floatText (.finite s r))) = some (.finite s r) := by
      rw [real?_eq_some_iff hx]
      refine ⟨s, d, ?_, hd.symm⟩
      rw [String.toList_ofList, htext]
      exact hdecimal
    have hfloat? : float? (String.ofList (Json.floatText (.finite s r))) = some (.finite s r) := by
      rw [float?_number hchars, hreal]
      rfl
    have hzero : hasIdleZero (sign (String.ofList (Json.floatText (.finite s r))).toList).2 = false := by
      rw [String.toList_ofList, hsign]
      exact hidle
    rw [plainTree?_float hchars hne hfit hzero hfloat?, Tree.ofReal_of_isFinite hx]

end PhaseCert.Yaml
