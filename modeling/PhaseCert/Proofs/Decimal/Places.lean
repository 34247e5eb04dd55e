/-
  PhaseCert.Proofs.Decimal.Places — decimals with few places, read and written again.

  `PlacesText` is a decimal as one writes it: blanks, a sign or none, digits with a point among or
  beside them, blanks. It is read as the closest double, and where the multiples of some 2^-e are
  doubles, that is within half of 2^-e of the decimal. If 2^-e is less than a unit of the last
  place, no other decimal with as many places is as close, so the double is written as the decimal
  that was read (`fixedValue_of_closest`). For ten places this is so up to 2^19, where the step is
  2^-34 (`PlacesText.fixedValue`).
-/
import PhaseCert.Proofs.Binary64.Overflow
import PhaseCert.Proofs.Flow
import PhaseCert.Proofs.Text.Blank

namespace PhaseCert

namespace Numeral

/-- What is so of the digits and of the marks is so of every character of a numeral. -/
theorem forall_mem_decimalText {P : Char → Prop} (hdigits : ∀ n < 10, P (Char.ofNat (48 + n)))
    (hmarks : ∀ c ∈ ['+', '-', '.', 'e', 'E'], P c) {cs : List Char} {negative : Bool} {d : Decimal}
    (h : DecimalText cs negative d) : ∀ c ∈ cs, P c := by
  intro c hc
  rcases decimalText_chars h c hc with hd | hd
  · exact forall_isDigit hdigits hd
  · exact hmarks c hd

theorem isBlank_decimalText {cs : List Char} {negative : Bool} {d : Decimal} (h : DecimalText cs negative d) :
    ∀ c ∈ cs, isBlank c = false :=
  forall_mem_decimalText (P := fun c => isBlank c = false) (by decide) (by decide) h

/-- A text is at most one decimal. -/
theorem decimalText_unique {cs : List Char} {negative negative' : Bool} {d d' : Decimal}
    (h : DecimalText cs negative d) (h' : DecimalText cs negative' d') : negative = negative' ∧ d = d' := by
  obtain ⟨hs, hd⟩ := decimalText_iff.1 h
  obtain ⟨hs', hd'⟩ := decimalText_iff.1 h'
  exact ⟨hs.symm.trans hs', Option.some.inj (hd.symm.trans hd')⟩

/-! ## Decimals with few places -/

/-- A decimal of at most so many digits after the point, among blanks, and the number it stands
    for. -/
inductive PlacesText (places : Nat) : List Char → ℚ → Prop
  | mk {before s whole point part after : List Char} {negative : Bool} : (∀ c ∈ before, isBlank c = true) →
      SignText s negative → AllDigits whole → AllDigits part → whole ≠ [] ∨ part ≠ [] →
      point = ['.'] ∨ (point = [] ∧ part = []) → part.length ≤ places → (∀ c ∈ after, isBlank c = true) →
      PlacesText places (before ++ (s ++ (whole ++ (point ++ part)) ++ after))
        ((if negative then -1 else 1) * (natOfDigits whole + natOfDigits part / 10 ^ part.length))

/-- It is a multiple of a unit of the last place, and is read without the blanks. -/
theorem PlacesText.decimal {places : Nat} {s : String} {q : ℚ} (h : PlacesText places s.toList q) :
    (∃ k : Int, q = k / 10 ^ places) ∧
      ∃ negative d, DecimalText (trimBlanks s).toList negative d ∧ q = if negative then -d.toRat else d.toRat := by
  obtain ⟨cs, hs⟩ : ∃ cs, s.toList = cs := ⟨_, rfl⟩
  rw [hs] at h
  cases h with
  | @mk before sign whole point part after negative hbefore hsign hwhole hpart hne hpoint hlength hafter =>
    have htext := DecimalText.mk hsign hwhole hpart hne hpoint .none
    rw [List.append_nil] at htext
    have htrim := trimBlanks_of_blanks hs hbefore hafter (trimmed_of_forall (isBlank_decimalText htext))
    have hvalue : (natOfDigits whole + natOfDigits part / 10 ^ part.length : ℚ)
        = natOfDigits (whole ++ part) / 10 ^ part.length := by
      rw [natOfDigits_append]
      push_cast
      field_simp
    have hpow : (10 : ℚ) ^ places = 10 ^ (places - part.length) * 10 ^ part.length := by
      rw [← pow_add, Nat.sub_add_cancel hlength]
    constructor
    · refine ⟨(if negative then -1 else 1) * (natOfDigits (whole ++ part) * 10 ^ (places - part.length)), ?_⟩
      rw [hvalue, hpow]
      cases negative <;> push_cast <;> field_simp
    · refine ⟨negative, _, htrim.symm ▸ htext, ?_⟩
      rw [hvalue, Decimal.toRat, zero_sub, zpow_neg, zpow_natCast, ← div_eq_mul_inv]
      cases negative <;> simp

end Numeral

/-! ## Read and written again -/

namespace Binary64

/-- Where 2^-e is a step of the doubles and less than a unit of the last place, the double closest
    to a decimal is written as that decimal. -/
theorem fixedValue_of_closest {x : Binary64} {q : ℚ} (h : x.Closest q) {places e : Nat} (he : e ≤ 1074)
    (hstep : 10 ^ places < 2 ^ e) (hq : |q| ≤ 2 ^ 53 / 2 ^ e) {k : Int} (hk : q = k / 10 ^ places) :
    x.fixedValue places = q := by
  have hstep : (10 : ℚ) ^ places < 2 ^ e := by exact_mod_cast hstep
  have hcount : x.fixedCount places = k := by
    apply fixedCount_eq_of_near
    rw [← hk, abs_sub_comm]
    calc |x.toRat - q| ≤ 1 / (2 * 2 ^ e) := h.near_step he hq
      _ < 1 / (2 * 10 ^ places) := by gcongr
  rw [fixedValue, hcount, hk]

end Binary64

/-- A text of at most ten places that stands for at most 524288 is read as a finite double, and
    written with ten places that double is the decimal of the text. -/
theorem Numeral.PlacesText.fixedValue {s : String} {q : ℚ} (h : PlacesText 10 s.toList q) (hq : |q| ≤ 524288)
    {negative : Bool} {d : Decimal} (hd : DecimalText (trimBlanks s).toList negative d) :
    (d.toBinary64 negative).isFinite = true ∧ (d.toBinary64 negative).fixedValue 10 = q := by
  obtain ⟨⟨k, hk⟩, negative', d', hd', hvalue⟩ := h.decimal
  obtain ⟨rfl, rfl⟩ := decimalText_unique hd hd'
  have habs : |q| = d.toRat := by rw [hvalue, Decimal.abs_signed]
  have hfinite : (d.toBinary64 negative).isFinite = true := by
    rw [Decimal.isFinite_toBinary64_iff, ← habs]
    calc |q| ≤ 524288 := hq
      _ = 2 ^ 19 := by norm_num
      _ < Binary64.overflow := Binary64.two_pow_lt_overflow (by decide)
  refine ⟨hfinite, ?_⟩
  have hclosest := Decimal.closest_toBinary64 hfinite
  rw [← hvalue] at hclosest
  have hrange : |q| ≤ 2 ^ 53 / 2 ^ 34 := hq.trans (by norm_num)
  exact Binary64.fixedValue_of_closest hclosest (by decide) (by decide) hrange hk

end PhaseCert
