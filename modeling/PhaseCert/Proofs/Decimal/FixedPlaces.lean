/-
  PhaseCert.Proofs.Decimal.FixedPlaces — what a number written with a set number of places says.

  Such a text is a numeral, and read exactly it is the multiple of the last place's unit that
  is nearest to the number (`value?_fixedText`). These values keep the order of the numbers
  (`fixedValue_mono`), are off by at most half of the last place (`fixedValue_near`), and are
  exact for the multiples themselves (`fixedValue_eq`). No other multiple is closer
  (`fixedValue_closest`), and one that is less than half of the last place away is the one that is
  shown (`fixedCount_eq_of_near`). Only more than half of the last place is shown as something
  positive (`fixedCount_pos_iff`).
-/
import Mathlib.Algebra.Order.Field.Power
import Mathlib.Data.Rat.Cast.Defs
import Mathlib.Tactic.FieldSimp
import PhaseCert.Decimal.Layout
import PhaseCert.Proofs.Binary64.Nearest
import PhaseCert.Proofs.Decimal.Numeral

namespace PhaseCert

/-! ## Integers rounded -/

/-- A quotient with a signed numerator to the nearest integer, a tie to the even one. -/
def roundDivInt (z : Int) (d : Nat) : Int := if z < 0 then -(roundDiv z.natAbs d : Int) else roundDiv z.natAbs d

@[simp] theorem roundDivInt_natCast (n d : Nat) : roundDivInt n d = roundDiv n d := by
  unfold roundDivInt
  rw [if_neg (by omega), Int.natAbs_natCast]

theorem roundDiv_zero {d : Nat} (hd : 0 < d) : roundDiv 0 d = 0 := by
  have := roundDiv_mul 0 hd
  rwa [Nat.zero_mul] at this

theorem roundDivInt_neg (z : Int) {d : Nat} (hd : 0 < d) : roundDivInt (-z) d = -roundDivInt z d := by
  unfold roundDivInt
  rw [Int.natAbs_neg]
  rcases Int.lt_trichotomy z 0 with h | rfl | h
  · rw [if_neg (by omega), if_pos h, Int.neg_neg]
  · simp [roundDiv_zero hd]
  · rw [if_pos (by omega), if_neg (by omega)]

theorem roundDivInt_mono {z w : Int} {d : Nat} (hd : 0 < d) (h : z ≤ w) : roundDivInt z d ≤ roundDivInt w d := by
  unfold roundDivInt
  split
  · split
    · have := roundDiv_mono hd hd (Nat.mul_le_mul_right d (show w.natAbs ≤ z.natAbs by omega))
      omega
    · omega
  · rw [if_neg (by omega)]
    have := roundDiv_mono hd hd (Nat.mul_le_mul_right d (show z.natAbs ≤ w.natAbs by omega))
    omega

theorem roundDivInt_near (z : Int) {d : Nat} (hd : 0 < d) :
    2 * (roundDivInt z d * d) ≤ 2 * z + d ∧ 2 * z ≤ 2 * (roundDivInt z d * d) + d := by
  obtain ⟨h1, h2⟩ := roundDiv_near hd z.natAbs
  unfold roundDivInt
  split
  · rw [Int.neg_mul]
    omega
  · omega

/-- Halfway between two integers the even one is taken, on both sides of zero. -/
theorem roundDivInt_tie {z : Int} {d : Nat} (hd : 0 < d)
    (h : 2 * (roundDivInt z d * d) = 2 * z + d ∨ 2 * z = 2 * (roundDivInt z d * d) + d) : Even (roundDivInt z d) := by
  have ht : Even (roundDiv z.natAbs d : Int) := by
    rw [Int.even_coe_nat, Nat.even_iff]
    unfold roundDivInt at h
    apply roundDiv_tie hd
    by_cases hz : z < 0
    · rw [if_pos hz, Int.neg_mul] at h
      omega
    · rw [if_neg hz] at h
      omega
  unfold roundDivInt
  split
  · exact ht.neg
  · exact ht

/-- Only what is more than half is rounded to something positive: half itself goes to 0. -/
theorem roundDivInt_pos_iff {z : Int} {d : Nat} (hd : 0 < d) : 0 < roundDivInt z d ↔ (d : Int) < 2 * z := by
  obtain ⟨h1, h2⟩ := roundDivInt_near z hd
  constructor
  · intro hpos
    have hge : (d : Int) ≤ roundDivInt z d * d := by
      calc (d : Int) = 1 * d := (Int.one_mul _).symm
        _ ≤ roundDivInt z d * d := Int.mul_le_mul_of_nonneg_right hpos (by omega)
    by_contra hle
    have hone : roundDivInt z d * d = 1 * d := by omega
    have heven := roundDivInt_tie hd (z := z) (.inl (by omega))
    rw [Int.eq_of_mul_eq_mul_right (by omega) hone] at heven
    exact absurd heven (by decide)
  · intro hlt
    by_contra hneg
    have : roundDivInt z d * d ≤ 0 := Int.mul_nonpos_of_nonpos_of_nonneg (by omega) (by omega)
    omega

theorem roundDivInt_mul (k : Int) {d : Nat} (hd : 0 < d) : roundDivInt (k * d) d = k := by
  rcases Int.le_total 0 k with h | h
  · obtain ⟨n, rfl⟩ := Int.eq_ofNat_of_zero_le h
    rw [show ((n : Nat) : Int) * d = ((n * d : Nat) : Int) by push_cast; rfl, roundDivInt_natCast, roundDiv_mul n hd]
  · obtain ⟨n, hn⟩ := Int.eq_ofNat_of_zero_le (show 0 ≤ -k by omega)
    rw [show k * d = -((n * d : Nat) : Int) by push_cast; rw [← hn]; ring, roundDivInt_neg _ hd, roundDivInt_natCast,
      roundDiv_mul n hd]
    omega

namespace Binary64

/-! ## The decimal that is shown -/

/-- How many units of the last place a number shown with so many places has. -/
def fixedCount (places : Nat) (x : Binary64) : Int := roundDivInt (x.units * 10 ^ places) (2 ^ 1074)

/-- The decimal that a number is shown as with so many places. -/
def fixedValue (places : Nat) (x : Binary64) : ℚ := x.fixedCount places / 10 ^ places

theorem fixedCount_mono (places : Nat) {x y : Binary64} (h : x.toRat ≤ y.toRat) :
    x.fixedCount places ≤ y.fixedCount places := by
  rw [toRat_le_toRat] at h
  exact roundDivInt_mono (by positivity) (Int.mul_le_mul_of_nonneg_right h (by positivity))

theorem fixedValue_mono (places : Nat) {x y : Binary64} (h : x.toRat ≤ y.toRat) :
    x.fixedValue places ≤ y.fixedValue places := by
  have := fixedCount_mono places h
  unfold fixedValue
  rw [div_le_div_iff_of_pos_right (by positivity), Int.cast_le]
  exact this

/-- Written numbers that are not the same are a unit of the last place apart. -/
theorem fixedValue_add_le {places : Nat} {x y : Binary64} (h : x.fixedValue places < y.fixedValue places) :
    x.fixedValue places + 1 / 10 ^ places ≤ y.fixedValue places := by
  unfold fixedValue at h ⊢
  rw [div_lt_div_iff_of_pos_right (by positivity), Int.cast_lt] at h
  rw [← add_div, div_le_div_iff_of_pos_right (by positivity)]
  exact_mod_cast h

theorem fixedValue_sub_toRat (places : Nat) (x : Binary64) : x.fixedValue places - x.toRat
    = (x.fixedCount places * 2 ^ 1074 - x.units * 10 ^ places) / (10 ^ places * 2 ^ 1074) := by
  unfold fixedValue toRat
  field_simp

/-- What is shown is off by at most half a unit of the last place. -/
theorem fixedValue_near (places : Nat) (x : Binary64) : |x.fixedValue places - x.toRat| ≤ 1 / (2 * 10 ^ places) := by
  obtain ⟨h1, h2⟩ := roundDivInt_near (x.units * 10 ^ places) (show 0 < 2 ^ 1074 by positivity)
  have h1' : (2 * (x.fixedCount places * 2 ^ 1074) : ℚ) ≤ 2 * (x.units * 10 ^ places) + 2 ^ 1074 := by
    exact_mod_cast h1
  have h2' : (2 * (x.units * 10 ^ places) : ℚ) ≤ 2 * (x.fixedCount places * 2 ^ 1074) + 2 ^ 1074 := by
    exact_mod_cast h2
  rw [fixedValue_sub_toRat, abs_div, abs_of_pos (show (0 : ℚ) < 10 ^ places * 2 ^ 1074 by positivity),
    div_le_div_iff₀ (by positivity) (by positivity), one_mul]
  have : |(x.fixedCount places * 2 ^ 1074 - x.units * 10 ^ places : ℚ)| ≤ 2 ^ 1074 / 2 := by
    rw [abs_le]
    constructor <;> linarith
  calc |(x.fixedCount places * 2 ^ 1074 - x.units * 10 ^ places : ℚ)| * (2 * 10 ^ places)
      ≤ 2 ^ 1074 / 2 * (2 * 10 ^ places) := mul_le_mul_of_nonneg_right this (by positivity)
    _ = 10 ^ places * 2 ^ 1074 := by ring

/-- Halfway between two of the decimals that can be shown it is the even one. -/
theorem fixedCount_tie {places : Nat} {x : Binary64}
    (h : |x.fixedValue places - x.toRat| = 1 / (2 * 10 ^ places)) : Even (x.fixedCount places) := by
  rw [fixedValue_sub_toRat, abs_div, abs_of_pos (show (0 : ℚ) < 10 ^ places * 2 ^ 1074 by positivity),
    div_eq_div_iff (by positivity) (by positivity), one_mul] at h
  have hd : |(x.fixedCount places * 2 ^ 1074 - x.units * 10 ^ places : ℚ)| * 2 = 2 ^ 1074 := by
    apply mul_right_cancel₀ (show (10 : ℚ) ^ places ≠ 0 by positivity)
    linarith
  apply roundDivInt_tie (show 0 < 2 ^ 1074 by positivity)
  rcases abs_choice (x.fixedCount places * 2 ^ 1074 - x.units * 10 ^ places : ℚ) with e | e
  · left
    rw [e] at hd
    have : (2 * (x.fixedCount places * 2 ^ 1074) : ℚ) = 2 * (x.units * 10 ^ places) + 2 ^ 1074 := by linarith
    exact_mod_cast this
  · right
    rw [e] at hd
    have : (2 * (x.units * 10 ^ places) : ℚ) = 2 * (x.fixedCount places * 2 ^ 1074) + 2 ^ 1074 := by linarith
    exact_mod_cast this

/-- Another decimal with so many places is a unit of the last place away. -/
theorem le_abs_sub_fixedValue {places : Nat} {x : Binary64} {k : Int} (h : k ≠ x.fixedCount places) :
    1 / 10 ^ places ≤ |(k / 10 ^ places : ℚ) - x.fixedValue places| := by
  have hone : (1 : ℚ) ≤ |((k - x.fixedCount places : Int) : ℚ)| := by
    exact_mod_cast Int.one_le_abs (sub_ne_zero.2 h)
  rw [Int.cast_sub] at hone
  rw [fixedValue, ← sub_div, abs_div, abs_of_pos (show (0 : ℚ) < 10 ^ places by positivity),
    div_le_div_iff_of_pos_right (by positivity)]
  exact hone

/-- Of all decimals with so many places the one that is shown is the closest, and one that is as
    close leaves it the even one. -/
theorem fixedValue_closest (places : Nat) (x : Binary64) (k : Int) :
    |x.fixedValue places - x.toRat| ≤ |(k / 10 ^ places : ℚ) - x.toRat| ∧
      (k ≠ x.fixedCount places → |(k / 10 ^ places : ℚ) - x.toRat| = |x.fixedValue places - x.toRat| →
        Even (x.fixedCount places)) := by
  have hhalf : (1 : ℚ) / 10 ^ places = 2 * (1 / (2 * 10 ^ places)) := by
    field_simp
  have hnear := fixedValue_near places x
  by_cases hk : k = x.fixedCount places
  · refine ⟨?_, fun hne => absurd hk hne⟩
    rw [hk, ← fixedValue]
  · -- the two are a unit apart, so one that is no farther is half a unit away
    have hapart := le_abs_sub_fixedValue hk
    have htriangle := abs_sub_le (k / 10 ^ places : ℚ) x.toRat (x.fixedValue places)
    rw [abs_sub_comm x.toRat] at htriangle
    refine ⟨by linarith, fun _ heq => ?_⟩
    apply fixedCount_tie
    linarith

/-- Less than half a unit of the last place away from a decimal, a number is shown as that. -/
theorem fixedCount_eq_of_near {places : Nat} {x : Binary64} {k : Int}
    (h : |(k / 10 ^ places : ℚ) - x.toRat| < 1 / (2 * 10 ^ places)) : x.fixedCount places = k := by
  by_contra hne
  have hhalf : (1 : ℚ) / 10 ^ places = 2 * (1 / (2 * 10 ^ places)) := by
    field_simp
  have hapart := le_abs_sub_fixedValue (Ne.symm hne)
  have htriangle := abs_sub_le (k / 10 ^ places : ℚ) x.toRat (x.fixedValue places)
  rw [abs_sub_comm x.toRat] at htriangle
  have hnear := fixedValue_near places x
  linarith

/-- More than half a unit of the last place is shown as something positive, and nothing else is. -/
theorem fixedCount_pos_iff {places : Nat} {x : Binary64} :
    0 < x.fixedCount places ↔ 1 / (2 * 10 ^ places) < x.toRat := by
  have e : ((2 ^ 1074 : Nat) : Int) < 2 * (x.units * 10 ^ places) ↔
      (1 * 2 ^ 1074 : ℚ) < x.units * (2 * 10 ^ places) := by
    rw [one_mul, mul_left_comm]
    exact_mod_cast Iff.rfl
  rw [fixedCount, roundDivInt_pos_iff (by positivity), toRat, div_lt_div_iff₀ (by positivity) (by positivity)]
  exact e

/-- A number that has no more places is shown as itself. -/
theorem fixedValue_eq {places : Nat} {x : Binary64} {k : Int} (h : x.toRat = k / 10 ^ places) :
    x.fixedValue places = x.toRat := by
  have hk : x.units * 10 ^ places = k * (2 ^ 1074 : Nat) := by
    unfold toRat at h
    rw [div_eq_div_iff (by positivity) (by positivity)] at h
    exact_mod_cast h
  unfold fixedValue fixedCount
  rw [hk, roundDivInt_mul k (by positivity), h]

theorem fixedValue_zero (places : Nat) : zero.fixedValue places = 0 := by
  rw [fixedValue_eq (k := 0) (by simp), toRat_zero]

theorem fixedValue_one (places : Nat) : one.fixedValue places = 1 := by
  rw [fixedValue_eq (k := 10 ^ places) (by simp), toRat_one]

end Binary64

/-! ## Numerals read exactly -/

/-- The rational that a decimal stands for. -/
def Decimal.toRat (d : Decimal) : ℚ := d.coefficient * 10 ^ d.exponent

theorem Decimal.toRat_nonneg (d : Decimal) : 0 ≤ d.toRat := by
  unfold toRat
  positivity

/-- With a sign or without, it is as large. -/
theorem Decimal.abs_signed (negative : Bool) (d : Decimal) : |if negative then -d.toRat else d.toRat| = d.toRat := by
  cases negative
  · exact abs_of_nonneg d.toRat_nonneg
  · exact (abs_neg _).trans (abs_of_nonneg d.toRat_nonneg)

/-- The rational that a numeral stands for. -/
def Numeral.value? (cs : List Char) : Option ℚ :=
  let (negative, rest) := Numeral.sign cs
  (Numeral.decimal? rest).map fun d => if negative then -d.toRat else d.toRat

theorem Numeral.value?_of_text {cs : List Char} {negative : Bool} {d : Decimal}
    (h : Numeral.DecimalText cs negative d) :
    Numeral.value? cs = some (if negative then -d.toRat else d.toRat) := by
  obtain ⟨rfl, hd⟩ := Numeral.decimalText_iff.1 h
  simp only [Numeral.value?, hd, Option.map_some]

/-! ## The text -/

theorem natOfDigits_paddedDigits (length n : Nat) : Numeral.natOfDigits (paddedDigits length n) = n := by
  simp only [paddedDigits]
  rw [Numeral.natOfDigits_append, Numeral.natOfDigits_toString, Numeral.natOfDigits_eq,
    Nat.ofDigitChars_replicate_zero]
  omega

theorem allDigits_paddedDigits (length n : Nat) : Numeral.AllDigits (paddedDigits length n) := by
  intro c hc
  simp only [paddedDigits] at hc
  rcases List.mem_append.1 hc with hc | hc
  · rw [List.eq_of_mem_replicate hc]
    rfl
  · exact Numeral.allDigits_toString n c hc

theorem length_paddedDigits {length n : Nat} (h0 : 0 < length) (h : n < 10 ^ length) :
    (paddedDigits length n).length = length := by
  have : (toString n).toList.length ≤ length := by
    rw [Nat.toString_eq_ofList_toDigits, String.toList_ofList, Nat.length_toDigits_le_iff (by decide) h0]
    exact h
  simp only [paddedDigits, List.length_append, List.length_replicate]
  omega

/-- A finite double is written as a numeral: its sign, and as many units of the last place as
    are nearest to it. -/
theorem decimalText_fixedText {places : Nat} (hp : 0 < places) (s : Bool) (r : Fin Binary64.topRank) :
    Numeral.DecimalText (fixedText places (.finite s r)).toList s
      ⟨roundDiv (Binary64.unitsOfRank r * 10 ^ places) (2 ^ 1074), 0 - (places : Int)⟩ := by
  generalize hn : roundDiv (Binary64.unitsOfRank r * 10 ^ places) (2 ^ 1074) = n
  have hlen : (paddedDigits places (n % 10 ^ places)).length = places :=
    length_paddedDigits hp (Nat.mod_lt _ (by positivity))
  have hcoef : Numeral.natOfDigits ((toString (n / 10 ^ places)).toList ++ paddedDigits places (n % 10 ^ places)) = n := by
    rw [Numeral.natOfDigits_append, Numeral.natOfDigits_toString, natOfDigits_paddedDigits, hlen]
    exact Nat.div_add_mod' n _
  have hsign : Numeral.SignText (if s then ['-'] else []) s := by
    cases s
    · exact .none
    · exact .minus
  have htext := Numeral.DecimalText.mk hsign (Numeral.allDigits_toString (n / 10 ^ places))
    (allDigits_paddedDigits places (n % 10 ^ places)) (Or.inl (Numeral.toString_ne_nil _)) (Or.inl rfl) .none
  rw [hcoef, hlen] at htext
  simp only [fixedText, Nat.pow_eq, hn, String.toList_ofList, List.append_assoc]
  simpa only [List.append_nil, List.singleton_append] using htext

theorem fixedText_chars {places : Nat} (hp : 0 < places) {x : Binary64} (hx : x.isFinite = true) :
    ∀ c ∈ (fixedText places x).toList, c.isDigit = true ∨ c ∈ ['+', '-', '.', 'e', 'E'] := by
  cases x with
  | nan => cases hx
  | infinite s => cases hx
  | finite s r => exact Numeral.decimalText_chars (decimalText_fixedText hp s r)

theorem fixedCount_finite (places : Nat) (s : Bool) (r : Fin Binary64.topRank) :
    Binary64.fixedCount places (.finite s r)
      = if s then -(roundDiv (Binary64.unitsOfRank r * 10 ^ places) (2 ^ 1074) : Int)
        else roundDiv (Binary64.unitsOfRank r * 10 ^ places) (2 ^ 1074) := by
  unfold Binary64.fixedCount
  rw [← roundDivInt_natCast]
  cases s
  · simp [Binary64.units]
  · simp only [Binary64.units, if_true, ← roundDivInt_neg _ (show 0 < 2 ^ 1074 by positivity)]
    push_cast
    rw [Int.neg_mul]

/-- Read as a numeral, the text of a finite double is the decimal that it is shown as. -/
theorem value?_fixedText {places : Nat} (hp : 0 < places) {x : Binary64} (hx : x.isFinite = true) :
    Numeral.value? (fixedText places x).toList = some (x.fixedValue places) := by
  cases x with
  | nan => cases hx
  | infinite s => cases hx
  | finite s r =>
    rw [Numeral.value?_of_text (decimalText_fixedText hp s r), Binary64.fixedValue, fixedCount_finite,
      Decimal.toRat, zero_sub, zpow_neg, zpow_natCast, ← div_eq_mul_inv]
    cases s
    · simp only [Bool.false_eq_true, if_false, Int.cast_natCast]
    · simp only [if_true, Int.cast_neg, Int.cast_natCast, neg_div]

end PhaseCert
