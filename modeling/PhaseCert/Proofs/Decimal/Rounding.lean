/-
  PhaseCert.Proofs.Decimal.Rounding — the double nearest to a decimal.

  A decimal is a quotient, and the double it is read as is the one nearest to that quotient: that
  very large and very small decimals are settled early makes no difference (`toBinary64_eq`). So
  two decimals of one value are read as one double, whatever their digits (`toBinary64_congr`),
  and a decimal in the interval of a double is read as that double (`toBinary64_of_roundsTo`).
-/
import PhaseCert.Proofs.Binary64.Neighbours
import PhaseCert.Proofs.Decimal.FixedPlaces

namespace PhaseCert.Decimal

open Binary64

/-- A decimal as a quotient of natural numbers. -/
def quotient (d : Decimal) : Nat × Nat :=
  match d.exponent with
  | .ofNat e => (d.coefficient * 10 ^ e, 1)
  | .negSucc e => (d.coefficient, 10 ^ (e + 1))

theorem quotient_pos (d : Decimal) : 0 < d.quotient.2 := by
  unfold quotient
  split
  · exact Nat.one_pos
  · exact Nat.pow_pos (by decide)

/-- Over a common denominator, a decimal is its coefficient times the power of ten. -/
theorem quotient_toRat (d : Decimal) : (d.quotient.1 : ℚ) / d.quotient.2 = d.toRat := by
  unfold quotient toRat
  split
  · rename_i e he
    rw [he]
    push_cast
    rw [div_one, Int.ofNat_eq_natCast, zpow_natCast]
  · rename_i e he
    rw [he, zpow_negSucc]
    push_cast
    rw [div_eq_mul_inv]

theorem ofQuotient_eq (s : Bool) (n d : Nat) : ofQuotient s n d = ofRank s (nearestRank (n * 2 ^ 1074) d) := by
  simp only [ofQuotient, ofUnits, Nat.pow_eq]

theorem eight_pow_le (e : Nat) : 2 ^ (3 * e) ≤ 10 ^ e := by
  rw [Nat.pow_mul]
  exact Nat.pow_le_pow_left (by decide) e

/-- What is at least 2^1024 is past the last finite double. -/
theorem topRank_le {n : Nat} (h : 2 ^ 1024 ≤ n) : topRank ≤ nearestRank (n * 2 ^ 1074) 1 := by
  have hmono : nearestRank (unitsOfRank topRank * 1) 1 ≤ nearestRank (n * 2 ^ 1074) 1 := by
    apply nearestRank_mono Nat.one_pos Nat.one_pos
    rw [unitsOfRank_topRank, Nat.mul_one, Nat.mul_one, Nat.mul_one]
    exact Nat.mul_le_mul_right _ h
  rwa [nearestRank_units topRank Nat.one_pos] at hmono

/-- What is less than half the least positive double is rounded to zero. -/
theorem nearestRank_eq_zero {n d : Nat} (hd : 0 < d) (h : 2 * n < d) : nearestRank n d = 0 := by
  rw [nearestRank_eq_iff hd]
  have hone : unitsOfRank (0 + 1) = 1 := rfl
  constructor
  · intro h0
    omega
  · intro h0
    omega
  · rw [unitsOfRank_zero, hone]
    omega
  · intro _
    rfl

theorem toBinary64_eq (s : Bool) (d : Decimal) : d.toBinary64 s = .ofQuotient s d.quotient.1 d.quotient.2 := by
  have hpos := d.quotient_pos
  obtain ⟨c, k⟩ := d
  rw [toBinary64, ofQuotient_eq]
  by_cases hc : c = 0
  · rw [if_pos hc]
    have hzero : (Decimal.mk c k).quotient.1 = 0 := by
      subst hc
      cases k <;> simp [quotient]
    rw [hzero, Nat.zero_mul, nearestRank_zero hpos]
  · rw [if_neg hc]
    have hlow : 2 ^ c.log2 ≤ c := Nat.log2_self_le hc
    have hhigh : c < 2 ^ (c.log2 + 1) := Nat.lt_log2_self
    cases k with
    | ofNat e =>
      simp only [quotient]
      split
      · rename_i hbig
        have hexp : 2 ^ 1024 ≤ 2 ^ (c.log2 + 3 * e) := Nat.pow_le_pow_right (by decide) hbig
        have hle : 2 ^ 1024 ≤ c * 10 ^ e := by
          rw [Nat.pow_add] at hexp
          calc 2 ^ 1024 ≤ 2 ^ c.log2 * 2 ^ (3 * e) := hexp
            _ ≤ c * 10 ^ e := Nat.mul_le_mul hlow (eight_pow_le e)
        rw [ofRank, dif_neg (Nat.not_lt.2 (topRank_le hle))]
      · rfl
    | negSucc e =>
      simp only [quotient]
      split
      · rename_i hsmall
        have hlt : 2 * (c * 2 ^ 1074) < 10 ^ (e + 1) := by
          calc 2 * (c * 2 ^ 1074) = c * 2 ^ 1075 := by rw [Nat.mul_left_comm, ← Nat.pow_succ']
            _ < 2 ^ (c.log2 + 1) * 2 ^ 1075 := Nat.mul_lt_mul_of_pos_right hhigh (by positivity)
            _ = 2 ^ (c.log2 + 1 + 1075) := (Nat.pow_add 2 _ _).symm
            _ ≤ 2 ^ (3 * (e + 1)) := Nat.pow_le_pow_right (by decide) hsmall
            _ ≤ 10 ^ (e + 1) := eight_pow_le (e + 1)
        rw [nearestRank_eq_zero (Nat.pow_pos (by decide)) hlt]
      · rfl

theorem toBinary64_congr (s : Bool) {d d' : Decimal} (h : d.toRat = d'.toRat) : d.toBinary64 s = d'.toBinary64 s := by
  have hd := d.quotient_pos
  have hd' := d'.quotient_pos
  rw [← quotient_toRat, ← quotient_toRat, div_eq_div_iff (by positivity) (by positivity)] at h
  have hcross : d.quotient.1 * d'.quotient.2 = d'.quotient.1 * d.quotient.2 := by exact_mod_cast h
  rw [toBinary64_eq, toBinary64_eq, ofQuotient_eq, ofQuotient_eq, nearestRank_congr hd hd']
  rw [Nat.mul_right_comm, hcross, Nat.mul_right_comm]

theorem toBinary64_of_roundsTo (s : Bool) {d : Decimal} {r : Fin topRank}
    (h : RoundsTo r.val (d.quotient.1 * 2 ^ 1074) d.quotient.2) : d.toBinary64 s = .finite s r := by
  rw [toBinary64_eq, ofQuotient_eq, (nearestRank_eq_iff d.quotient_pos).2 h, ofRank, dif_pos r.isLt]

end PhaseCert.Decimal
