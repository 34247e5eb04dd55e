/-
  PhaseCert.Proofs.Instance.Literal — what a real literal looks like, and what it says.

  `RealText` is the form of a literal: a minus or none, digits without an idle zero, a point, ten
  digits. The literal of a finite double has this form, with a minus exactly if the double is
  below zero, so also where its digits are all zero; only the negative zero loses its sign.

  Read exactly (`literalValue?`), the literal is the multiple of 10^-10 closest to the double, an
  even one of two, and literals are in the order of the doubles (`realLiteral_spec`).
-/
import PhaseCert.Proofs.Decimal.Layout
import PhaseCert.Proofs.Instance.Reading

namespace PhaseCert.Instance

open Numeral

/-! ## The form of a literal -/

def minusSign (negative : Bool) : List Char := if negative then ['-'] else []

/-- A literal, whether it has a minus, and how many units of the tenth place its digits spell. -/
inductive RealText : List Char → Bool → Nat → Prop
  | mk {whole part : List Char} (negative : Bool) : WholeText whole → AllDigits part → part.length = 10 →
      RealText ('(' :: (minusSign negative ++ (whole ++ '.' :: part)) ++ [')', '%', 'R']) negative
        (natOfDigits (whole ++ part))

/-- The number in a literal of this scope. -/
def literalBody? (scope : Char) (literal : List Char) : Option (List Char) := do
  let rest ← ['('].isPrefixOf? literal
  [')', '%', scope].isSuffixOf? rest

theorem literalBody?_append (scope : Char) (number : List Char) :
    literalBody? scope ('(' :: number ++ [')', '%', scope]) = some number := by
  have hopen : ['('].isPrefixOf? ('(' :: number ++ [')', '%', scope]) = some (number ++ [')', '%', scope]) :=
    isPrefixOf?_append ['('] _
  rw [literalBody?, hopen, Option.bind_eq_bind, Option.bind_some]
  exact isSuffixOf?_append number _

/-- The rational that a real literal stands for. -/
def literalValue? (literal : String) : Option ℚ := (literalBody? 'R' literal.toList).bind value?

theorem literalValue?_of_number {literal : String} {number : List Char}
    (h : literal.toList = '(' :: number ++ [')', '%', 'R']) : literalValue? literal = value? number := by
  rw [literalValue?, h, literalBody?_append, Option.bind_some]

theorem signText_minusSign (negative : Bool) : SignText (minusSign negative) negative := by
  cases negative
  · exact .none
  · exact .minus

/-- The digits of a literal and its minus say what it stands for. -/
theorem RealText.value {literal : String} {negative : Bool} {n : Nat} (h : RealText literal.toList negative n) :
    literalValue? literal = some (((if negative then -(n : Int) else n : Int) : ℚ) / 10 ^ 10) := by
  obtain ⟨cs, hl⟩ : ∃ cs, literal.toList = cs := ⟨_, rfl⟩
  rw [hl] at h
  cases h with
  | @mk whole part _ hwhole hpart hlength =>
    have htext := DecimalText.mk (signText_minusSign negative) hwhole.digits hpart (.inl hwhole.ne_nil) (.inl rfl) .none
    rw [List.append_nil, List.singleton_append, hlength] at htext
    rw [literalValue?_of_number hl, value?_of_text htext, Decimal.toRat, zero_sub, zpow_neg, zpow_natCast,
      ← div_eq_mul_inv]
    cases negative
    · simp only [Bool.false_eq_true, if_false, Int.cast_natCast]
    · simp only [if_true, Int.cast_neg, Int.cast_natCast, neg_div]

/-! ## The literal of a double -/

theorem realLiteral_toList (x : Binary64) :
    (realLiteral x).toList = '(' :: (numberText x).toList ++ [')', '%', 'R'] := by
  rw [realLiteral_eq, String.toList_append, String.toList_append]
  rfl

/-- A finite double with so many places: digits without an idle zero, and as many after the point. -/
theorem fixedText_parts {places : Nat} (hp : 0 < places) (s : Bool) (r : Fin Binary64.topRank) :
    ∃ whole part, (fixedText places (.finite s r)).toList = minusSign s ++ (whole ++ '.' :: part) ∧
      WholeText whole ∧ AllDigits part ∧ part.length = places ∧
      natOfDigits (whole ++ part) = (Binary64.fixedCount places (.finite s r)).natAbs := by
  have hcount := fixedCount_finite places s r
  obtain ⟨n, hn⟩ : ∃ n, roundDiv (Binary64.unitsOfRank r * 10 ^ places) (2 ^ 1074) = n := ⟨_, rfl⟩
  rw [hn] at hcount
  have hlength : (paddedDigits places (n % 10 ^ places)).length = places :=
    length_paddedDigits hp (Nat.mod_lt _ (by positivity))
  refine ⟨_, _, ?_, wholeText_toString (n / 10 ^ places), allDigits_paddedDigits places (n % 10 ^ places), hlength, ?_⟩
  · simp only [fixedText, Nat.pow_eq, hn, String.toList_ofList, List.append_assoc, minusSign]
  · rw [natOfDigits_append, natOfDigits_toString, natOfDigits_paddedDigits, hlength, Nat.div_add_mod', hcount]
    cases s <;> simp

/-- The sign of a double is that of what is shown of it. -/
theorem fixedCount_sign (places : Nat) (s : Bool) (r : Fin Binary64.topRank) :
    Binary64.fixedCount places (.finite s r) = if s then -((Binary64.fixedCount places (.finite s r)).natAbs : Int)
      else (Binary64.fixedCount places (.finite s r)).natAbs := by
  have hcount := fixedCount_finite places s r
  obtain ⟨n, hn⟩ : ∃ n, roundDiv (Binary64.unitsOfRank r * 10 ^ places) (2 ^ 1074) = n := ⟨_, rfl⟩
  rw [hn] at hcount
  rw [hcount]
  cases s <;> simp

/-- What is written is a double of this size with the sign of what is below zero, so that a zero
    has none. -/
theorem numberText_finite {x : Binary64} (hx : x.isFinite = true) :
    ∃ r, numberText x = fixedText realPlaces (.finite (x.lt .zero) r) ∧
      x.fixedCount realPlaces = Binary64.fixedCount realPlaces (.finite (x.lt .zero) r) := by
  by_cases h0 : x.place? = some 0
  · have hlt : x.lt .zero = false := by
      simp [Binary64.lt, h0]
    have hunits : x.units = Binary64.zero.units := by
      have hzero : Binary64.zero.units = 0 := by
        rw [Binary64.zero_eq]
        rfl
      rcases Binary64.eq_zero_of_place h0 with rfl | rfl
      · rfl
      · rw [Binary64.units_neg, hzero, Int.neg_zero]
    refine ⟨⟨0, Binary64.topRank_pos⟩, ?_, ?_⟩
    · rw [numberText, if_pos h0, hlt, Binary64.zero_eq]
    · rw [hlt, ← Binary64.zero_eq, Binary64.fixedCount, Binary64.fixedCount, hunits]
  · cases x with
    | nan => cases hx
    | infinite s => cases hx
    | finite s r =>
      have hlt : (Binary64.finite s r).lt .zero = s := by
        have hz := Binary64.place?_zero
        rw [Binary64.place?_finite, Option.some.injEq] at h0
        simp only [Binary64.lt, hz, Binary64.place?_finite]
        cases s
        · simp
        · simp only [if_true] at h0 ⊢
          simp only [decide_eq_true_eq]
          omega
      refine ⟨r, ?_, ?_⟩
      · rw [numberText, if_neg h0, hlt]
      · rw [hlt]

/-- The literal of a finite double is a literal, with a minus exactly if the double is below zero. -/
theorem realText_realLiteral {x : Binary64} (hx : x.isFinite = true) :
    RealText (realLiteral x).toList (x.lt .zero) (x.fixedCount realPlaces).natAbs := by
  obtain ⟨r, htext, hcount⟩ := numberText_finite hx
  obtain ⟨whole, part, hparts, hwhole, hpart, hlength, hspelled⟩ :=
    fixedText_parts (show 0 < realPlaces by decide) (x.lt .zero) r
  rw [realLiteral_toList, htext, hparts, hcount, ← hspelled]
  exact .mk _ hwhole hpart hlength

theorem literalValue?_realLiteral {x : Binary64} (hx : x.isFinite = true) :
    literalValue? (realLiteral x) = some (x.fixedValue realPlaces) := by
  rw [literalValue?_of_number (realLiteral_toList x), value?_numberText hx]

/-! ## Every finite double -/

/-- The literal of a finite double has ten places and a minus exactly if the double is below zero.
    What it says is the multiple of 10^-10 closest to the double, an even one of two, and so at
    most half of 10^-10 away. A larger double has no smaller literal. -/
theorem realLiteral_spec (x : Binary64) (hx : x.isFinite = true) :
    ∃ (n : Nat) (k : Int), RealText (realLiteral x).toList (x.lt .zero) n ∧
      k = (if x.lt .zero then -(n : Int) else n) ∧
      literalValue? (realLiteral x) = some ((k : ℚ) / 10 ^ 10) ∧
      (∀ j : Int, |(k / 10 ^ 10 : ℚ) - x.toRat| ≤ |(j / 10 ^ 10 : ℚ) - x.toRat|) ∧
      (∀ j : Int, j ≠ k → |(j / 10 ^ 10 : ℚ) - x.toRat| = |(k / 10 ^ 10 : ℚ) - x.toRat| → Even k) ∧
      |(k / 10 ^ 10 : ℚ) - x.toRat| ≤ 5 / 10 ^ 11 ∧
      ∀ y : Binary64, y.isFinite = true → x.le y = true →
        ∃ q, literalValue? (realLiteral y) = some q ∧ (k : ℚ) / 10 ^ 10 ≤ q := by
  have hsign : x.fixedCount realPlaces = if x.lt .zero then -((x.fixedCount realPlaces).natAbs : Int)
      else (x.fixedCount realPlaces).natAbs := by
    obtain ⟨r, -, hcount⟩ := numberText_finite hx
    rw [hcount]
    exact fixedCount_sign realPlaces _ r
  have hvalue : x.fixedValue realPlaces = x.fixedCount realPlaces / 10 ^ 10 := rfl
  have hhalf : (1 / (2 * 10 ^ realPlaces) : ℚ) = 5 / 10 ^ 11 := by
    norm_num [realPlaces]
  have hnear := Binary64.fixedValue_near realPlaces x
  have htext := realText_realLiteral hx
  have hread := htext.value
  rw [← hsign] at hread
  rw [hvalue] at hnear
  refine ⟨_, x.fixedCount realPlaces, htext, hsign, hread, ?_, ?_, ?_, ?_⟩
  · intro j
    exact (Binary64.fixedValue_closest realPlaces x j).1
  · intro j hne heq
    exact (Binary64.fixedValue_closest realPlaces x j).2 hne heq
  · rwa [hhalf] at hnear
  · intro y hy hle
    refine ⟨_, literalValue?_realLiteral hy, ?_⟩
    rw [← hvalue]
    exact Binary64.fixedValue_mono realPlaces ((Binary64.le_iff hx hy).1 hle)

/-- Halfway between two decimals, and below zero: -(1 + 2^-11) has eleven places, and the last one
    is a 5. -/
def halfwayReal : Binary64 := Decimal.toBinary64 true ⟨100048828125, -11⟩

theorem realLiteral_spec_halfway : halfwayReal.isFinite = true ∧ ∃ n : Nat,
    RealText (realLiteral halfwayReal).toList true n ∧ |(-(n : Int) / 10 ^ 10 : ℚ) - halfwayReal.toRat| ≤ 5 / 10 ^ 11 := by
  have hx : halfwayReal.isFinite = true := by decide +kernel
  have hlt : halfwayReal.lt .zero = true := by decide +kernel
  obtain ⟨n, k, htext, hk, -, -, -, hnear, -⟩ := realLiteral_spec halfwayReal hx
  rw [hlt, if_pos rfl] at hk
  rw [hlt] at htext
  rw [hk] at hnear
  exact ⟨hx, n, htext, by exact_mod_cast hnear⟩

end PhaseCert.Instance
