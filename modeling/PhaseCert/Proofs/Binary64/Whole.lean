/-
  PhaseCert.Proofs.Binary64.Whole — the doubles nearest to large whole numbers.

  From 2^63 to 2^64 the doubles are the multiples of 2048. A whole number there is rounded to the
  nearest of them (`toInt?_ofInt`), and the result may be 2^64 itself.
-/
import PhaseCert.Proofs.Binary64.Nearest

namespace PhaseCert

/-- Equal quotients are rounded to the same integer. -/
theorem roundDiv_congr {n d n' d' : Nat} (hd : 0 < d) (hd' : 0 < d') (h : n * d' = n' * d) :
    roundDiv n d = roundDiv n' d' :=
  Nat.le_antisymm (roundDiv_mono hd hd' (Nat.le_of_eq h)) (roundDiv_mono hd' hd (Nat.le_of_eq h.symm))

namespace Binary64

/-- The step between doubles from 2^63 to 2^64. -/
def wholeStep : Nat := 2048

/-- The multiple of the step that is nearest to a whole number, a tie to the even one. -/
def nearestWhole (k : Nat) : Nat := roundDiv k wholeStep * wholeStep

theorem nearestWhole_near (k : Nat) : nearestWhole k ≤ k + 1024 ∧ k ≤ nearestWhole k + 1024 := by
  have h := roundDiv_near (show 0 < wholeStep by decide) k
  have hs : wholeStep = 2048 := rfl
  unfold nearestWhole
  omega

/-- Multiples of the step stay. -/
theorem nearestWhole_of_dvd {k : Nat} (h : wholeStep ∣ k) : nearestWhole k = k := by
  obtain ⟨m, rfl⟩ := h
  rw [nearestWhole, Nat.mul_comm wholeStep, roundDiv_mul m (by decide)]

/-- What is at most 2^64 stays so. -/
theorem nearestWhole_le {k : Nat} (h : k ≤ 18446744073709551616) : nearestWhole k ≤ 18446744073709551616 := by
  have hr : roundDiv k wholeStep ≤ 9007199254740992 := roundDiv_le (by decide) h
  exact Nat.mul_le_mul_right wholeStep hr

theorem nearestWhole_lt {k : Nat} (h : k < 18446744073709550592) : nearestWhole k < 18446744073709551616 := by
  have hnear := (nearestWhole_near k).1
  omega

/-- From halfway between the two largest multiples on, what is rounded becomes at least 2^64. -/
theorem le_nearestWhole {k : Nat} (h : 18446744073709550592 ≤ k) : 18446744073709551616 ≤ nearestWhole k := by
  have hhalf : roundDiv 18446744073709550592 wholeStep = 9007199254740992 := by decide
  have hr := roundDiv_mono (show 0 < wholeStep by decide) (show 0 < wholeStep by decide) (Nat.mul_le_mul_right wholeStep h)
  rw [hhalf] at hr
  exact Nat.mul_le_mul_right wholeStep hr

theorem units_ofRank {r : Nat} (h : r < topRank) : (ofRank false r).units = unitsOfRank r := by
  rw [ofRank, dif_pos h]
  rfl

theorem log2_mul_pow {k a : Nat} (h1 : 2 ^ a ≤ k) (h2 : k < 2 ^ (a + 1)) (s : Nat) : (k * 2 ^ s).log2 = a + s := by
  have hlow := Nat.mul_le_mul_right (2 ^ s) h1
  have hhigh := Nat.mul_lt_mul_of_pos_right h2 (Nat.two_pow_pos s)
  rw [← Nat.pow_add] at hlow hhigh
  have hpos : k * 2 ^ s ≠ 0 := by
    have := Nat.two_pow_pos (a + s)
    omega
  rw [Nat.log2_eq_iff hpos, Nat.add_right_comm]
  exact ⟨hlow, hhigh⟩

theorem shiftOf_whole {k : Nat} (h1 : 9223372036854775808 ≤ k) (h2 : k < 18446744073709551616) :
    shiftOf (k * 2 ^ 1074) 1 = 11 + 1074 := by
  rw [shiftOf, Nat.div_one, log2_mul_pow (a := 63) h1 h2]

/-- The double nearest to a whole number from 2^63 to 2^64 is the nearest multiple of the step. -/
theorem toInt?_ofInt {k : Nat} (h1 : 9223372036854775808 ≤ k) (h2 : k < 18446744073709551616) :
    (ofInt k).toInt? = some (nearestWhole k : Int) := by
  have hf : (ofInt k).isFinite = true := isFinite_ofInt (by omega)
  have hstep : wholeStep * 2 ^ 1074 = 2 ^ (11 + 1074) := by
    rw [show wholeStep = 2 ^ 11 by decide, Nat.pow_add 2 11 1074]
  have hcommon : k * 2 ^ 1074 * wholeStep = k * 2 ^ (11 + 1074) := by
    rw [Nat.mul_assoc, Nat.mul_comm (2 ^ 1074), hstep]
  have hround : roundDiv (k * 2 ^ 1074) (2 ^ (11 + 1074)) = roundDiv k wholeStep :=
    roundDiv_congr (by positivity) (by decide) hcommon
  have hunits : unitsOfRank (nearestRank (k * 2 ^ 1074) 1) = nearestWhole k * 2 ^ 1074 := by
    rw [unitsOfRank_nearestRank Nat.one_pos, shiftOf_whole h1 h2, Nat.one_mul, hround, nearestWhole, Nat.mul_assoc, hstep]
  have hrank : ofInt k = ofRank false (nearestRank (k * Nat.pow 2 1074) 1) := by
    have hneg : decide ((k : Int) < 0) = false := decide_eq_false (Int.not_lt.2 (Int.natCast_nonneg k))
    rw [ofInt, hneg, ofQuotient, ofUnits, Int.natAbs_natCast]
  rw [Nat.pow_eq] at hrank
  have hu : (ofInt k).units = (nearestWhole k * 2 ^ 1074 : Nat) := by
    rw [hrank] at hf ⊢
    rw [units_ofRank (isFinite_ofRank_iff.1 hf), hunits]
  rw [toInt?, hu, Nat.pow_eq, if_pos ⟨hf, by rw [Nat.cast_mul, Int.mul_emod_left]⟩, Nat.cast_mul,
    Int.mul_ediv_cancel _ (by positivity)]

end Binary64

end PhaseCert
