/-
  PhaseCert.Proofs.Binary64.Neighbours — which quotients round to a double.

  What rounds to a double lies between the midpoints to its two neighbours, and on a midpoint
  only if the rank is even: `RoundsTo`. No quotient is so placed for two doubles
  (`RoundsTo.unique`), and every quotient is for the double nearest to it
  (`roundsTo_nearestRank`). So rounding is known from the neighbours alone
  (`nearestRank_eq_iff`), and depends on nothing but the value of a quotient
  (`nearestRank_congr`).
-/
import PhaseCert.Proofs.Binary64.Nearest

namespace PhaseCert.Binary64

/-- `n / d` units lie in the interval of the reals that round to the double of this rank. -/
structure RoundsTo (r n d : Nat) : Prop where
  lower : 0 < r → (unitsOfRank (r - 1) + unitsOfRank r) * d ≤ 2 * n
  lower_even : 0 < r → (unitsOfRank (r - 1) + unitsOfRank r) * d = 2 * n → r % 2 = 0
  upper : 2 * n ≤ (unitsOfRank r + unitsOfRank (r + 1)) * d
  upper_even : 2 * n = (unitsOfRank r + unitsOfRank (r + 1)) * d → r % 2 = 0

/-- Of two intervals the lower one ends where the upper one begins, or before, and at a common
    end one of the two ranks is odd. -/
theorem RoundsTo.not_lt {r r' n d : Nat} (hd : 0 < d) (h : RoundsTo r n d) (h' : RoundsTo r' n d) : ¬r < r' := by
  intro hlt
  have hpos : 0 < r' := by omega
  have h1 := h.upper
  have h2 := h'.lower hpos
  have hr : unitsOfRank r ≤ unitsOfRank (r' - 1) := unitsOfRank_strictMono.monotone (by omega)
  have hr' : unitsOfRank (r + 1) ≤ unitsOfRank r' := unitsOfRank_strictMono.monotone (by omega)
  have hle : (unitsOfRank r + unitsOfRank (r + 1)) * d ≤ (unitsOfRank (r' - 1) + unitsOfRank r') * d :=
    Nat.mul_le_mul_right d (by omega)
  have he := h.upper_even (by omega)
  have he' := h'.lower_even hpos (by omega)
  -- the ranks are not neighbours, so the midpoints differ
  have hgap : unitsOfRank r < unitsOfRank (r' - 1) := unitsOfRank_strictMono (by omega)
  have hlt' : (unitsOfRank r + unitsOfRank (r + 1)) * d < (unitsOfRank (r' - 1) + unitsOfRank r') * d :=
    Nat.mul_lt_mul_of_pos_right (by omega) hd
  omega

theorem RoundsTo.unique {r r' n d : Nat} (hd : 0 < d) (h : RoundsTo r n d) (h' : RoundsTo r' n d) : r = r' := by
  have h1 := h.not_lt hd h'
  have h2 := h'.not_lt hd h
  omega

section Nearest

variable {n d : Nat}

/-- The rounded significand of a quotient. -/
def significand (n d : Nat) : Nat := roundDiv n (d * 2 ^ shiftOf n d)

theorem nearestRank_eq_significand (n d : Nat) : nearestRank n d = shiftOf n d * 2 ^ 52 + significand n d := rfl

theorem units_nearestRank (hd : 0 < d) : unitsOfRank (nearestRank n d) = significand n d * 2 ^ shiftOf n d :=
  unitsOfRank_nearestRank hd

/-- Ranks and significands are even together. -/
theorem nearestRank_even : nearestRank n d % 2 = significand n d % 2 := by
  rw [nearestRank_eq_significand]
  omega

theorem shiftOf_eq_zero (hd : 0 < d) (h : significand n d < 2 ^ 52) : shiftOf n d = 0 := by
  by_contra hs
  have := le_significand hd hs
  rw [significand] at h
  omega

/-- Where the significand is not full, the next double is one step of the grid up. -/
theorem unitsOfRank_above (hd : 0 < d) (h : significand n d < 2 ^ 53) :
    unitsOfRank (nearestRank n d + 1) = (significand n d + 1) * 2 ^ shiftOf n d := by
  rw [nearestRank_eq_significand, Nat.add_assoc]
  by_cases hk : significand n d + 1 < 2 ^ 52
  · have hs := shiftOf_eq_zero hd (show significand n d < 2 ^ 52 by omega)
    rw [hs, Nat.zero_mul, Nat.zero_add, unitsOfRank_small hk, Nat.pow_zero, Nat.mul_one]
  · exact unitsOfRank_shifted (by omega) (by omega)

/-- Where the significand is not the least one of its shift, the double before is one step down. -/
theorem unitsOfRank_below (hd : 0 < d) (hpos : 0 < significand n d)
    (h : shiftOf n d = 0 ∨ 2 ^ 52 < significand n d) :
    unitsOfRank (nearestRank n d - 1) = (significand n d - 1) * 2 ^ shiftOf n d := by
  have hle := significand_le (n := n) hd
  rw [← significand] at hle
  rw [nearestRank_eq_significand, Nat.add_sub_assoc hpos]
  by_cases hk : significand n d - 1 < 2 ^ 52
  · have hs : shiftOf n d = 0 := by
      rcases h with h | h
      · exact h
      · omega
    rw [hs, Nat.zero_mul, Nat.zero_add, unitsOfRank_small hk, Nat.pow_zero, Nat.mul_one]
  · exact unitsOfRank_shifted (by omega) (by omega)

theorem lower_nearestRank (hd : 0 < d) (hpos : 0 < nearestRank n d) :
    (unitsOfRank (nearestRank n d - 1) + unitsOfRank (nearestRank n d)) * d ≤ 2 * n ∧
      ((unitsOfRank (nearestRank n d - 1) + unitsOfRank (nearestRank n d)) * d = 2 * n → nearestRank n d % 2 = 0) := by
  obtain ⟨hnear, -⟩ := nearestRank_near (n := n) hd
  rw [units_nearestRank hd] at hnear
  have hstep : 0 < 2 ^ shiftOf n d := by positivity
  by_cases hk : shiftOf n d = 0 ∨ 2 ^ 52 < significand n d
  · have hsig : 0 < significand n d := by
      rcases hk with hk | hk
      · rw [nearestRank_eq_significand, hk] at hpos
        omega
      · omega
    have hsum : (unitsOfRank (nearestRank n d - 1) + unitsOfRank (nearestRank n d)) * d + d * 2 ^ shiftOf n d
        = 2 * (significand n d * 2 ^ shiftOf n d * d) := by
      rw [unitsOfRank_below hd hsig hk, units_nearestRank hd]
      obtain ⟨k, hk'⟩ := Nat.exists_eq_add_of_le' hsig
      rw [hk', Nat.add_sub_cancel]
      ring
    refine ⟨by omega, fun he => ?_⟩
    rw [nearestRank_even, significand]
    refine roundDiv_tie (by positivity) (Or.inl ?_)
    rw [← significand]
    have hassoc : significand n d * (d * 2 ^ shiftOf n d) = significand n d * 2 ^ shiftOf n d * d := by ring
    omega
  · -- the least significand of its shift is rounded from above
    rw [not_or] at hk
    have hle := le_of_shiftOf (n := n) hd hk.1
    have hsig : significand n d = 2 ^ 52 := by
      have := le_significand hd hk.1
      rw [← significand] at this
      omega
    have hunits : unitsOfRank (nearestRank n d) * d ≤ n := by
      rw [units_nearestRank hd, hsig]
      calc 2 ^ 52 * 2 ^ shiftOf n d * d = 2 ^ 52 * (d * 2 ^ shiftOf n d) := by ring
        _ ≤ n := hle
    have hbelow : unitsOfRank (nearestRank n d - 1) < unitsOfRank (nearestRank n d) :=
      unitsOfRank_strictMono (by omega)
    have hlt : unitsOfRank (nearestRank n d - 1) * d < unitsOfRank (nearestRank n d) * d :=
      Nat.mul_lt_mul_of_pos_right hbelow hd
    rw [Nat.add_mul]
    exact ⟨by omega, fun he => by omega⟩

theorem upper_nearestRank (hd : 0 < d) :
    2 * n ≤ (unitsOfRank (nearestRank n d) + unitsOfRank (nearestRank n d + 1)) * d ∧
      (2 * n = (unitsOfRank (nearestRank n d) + unitsOfRank (nearestRank n d + 1)) * d → nearestRank n d % 2 = 0) := by
  obtain ⟨-, hnear⟩ := nearestRank_near (n := n) hd
  rw [units_nearestRank hd] at hnear
  by_cases hk : significand n d < 2 ^ 53
  · have hsum : (unitsOfRank (nearestRank n d) + unitsOfRank (nearestRank n d + 1)) * d
        = 2 * (significand n d * 2 ^ shiftOf n d * d) + d * 2 ^ shiftOf n d := by
      rw [unitsOfRank_above hd hk, units_nearestRank hd]
      ring
    refine ⟨by omega, fun he => ?_⟩
    rw [nearestRank_even, significand]
    refine roundDiv_tie (by positivity) (Or.inr ?_)
    rw [← significand]
    have hassoc : significand n d * (d * 2 ^ shiftOf n d) = significand n d * 2 ^ shiftOf n d * d := by ring
    omega
  · -- a significand that is full is rounded from below
    have hlt := lt_of_shiftOf (n := n) hd
    have hle := significand_le (n := n) hd
    rw [← significand] at hle
    have hsig : significand n d = 2 ^ 53 := by omega
    have hunits : n < unitsOfRank (nearestRank n d) * d := by
      rw [units_nearestRank hd, hsig]
      calc n < 2 ^ 53 * (d * 2 ^ shiftOf n d) := hlt
        _ = 2 ^ 53 * 2 ^ shiftOf n d * d := by ring
    have habove : unitsOfRank (nearestRank n d) ≤ unitsOfRank (nearestRank n d + 1) :=
      Nat.le_of_lt (unitsOfRank_lt_succ _)
    have hle' : unitsOfRank (nearestRank n d) * d ≤ unitsOfRank (nearestRank n d + 1) * d :=
      Nat.mul_le_mul_right d habove
    rw [Nat.add_mul]
    exact ⟨by omega, fun he => by omega⟩

theorem roundsTo_nearestRank (n : Nat) (hd : 0 < d) : RoundsTo (nearestRank n d) n d where
  lower h := (lower_nearestRank hd h).1
  lower_even h := (lower_nearestRank hd h).2
  upper := (upper_nearestRank hd).1
  upper_even := (upper_nearestRank hd).2

theorem nearestRank_eq_iff {r : Nat} (hd : 0 < d) : nearestRank n d = r ↔ RoundsTo r n d := by
  constructor
  · rintro rfl
    exact roundsTo_nearestRank n hd
  · intro h
    exact (roundsTo_nearestRank n hd).unique hd h

theorem nearestRank_congr {n' d' : Nat} (hd : 0 < d) (hd' : 0 < d') (h : n * d' = n' * d) :
    nearestRank n d = nearestRank n' d' :=
  Nat.le_antisymm (nearestRank_mono hd hd' (Nat.le_of_eq h)) (nearestRank_mono hd' hd (Nat.le_of_eq h.symm))

end Nearest

end PhaseCert.Binary64
