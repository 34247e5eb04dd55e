/-
  PhaseCert.Proofs.Binary64.Closest — rounding as a choice among all finite doubles.

  `Closest` says of a double that none of the finite ones is closer to a number, and that its rank
  is even if another one is as close. It speaks of distances alone, and not of midpoints or of
  neighbours. A quotient that is rounded to a finite double is rounded to the closest one
  (`closest_ofQuotient`), a sum of two doubles that is finite is the double closest to the exact
  sum (`closest_add`), and a decimal is read as the double closest to it (`closest_toBinary64`).

  How far the closest double can be follows from which doubles there are: where all multiples of
  2^-e are, it is at most half of 2^-e away (`Closest.near_step`).

  Zero is no special case: the places of all doubles, the negative ones too, stand in one row, and
  a quotient lies between the midpoints to the two places beside its own (`RoundsToPlace`).
-/
import Mathlib.Algebra.Order.Round
import Mathlib.Algebra.Ring.Int.Parity
import Mathlib.Data.Rat.Floor
import PhaseCert.Proofs.Decimal.Rounding

namespace PhaseCert

namespace Binary64

/-! ## Places -/

/-- `z / d` units lie in the interval of the reals that round to the double at this place. -/
structure RoundsToPlace (p z : Int) (d : Nat) : Prop where
  lower : (unitsOfPlace (p - 1) + unitsOfPlace p) * d ≤ 2 * z
  lower_even : (unitsOfPlace (p - 1) + unitsOfPlace p) * d = 2 * z → Even p
  upper : 2 * z ≤ (unitsOfPlace p + unitsOfPlace (p + 1)) * d
  upper_even : 2 * z = (unitsOfPlace p + unitsOfPlace (p + 1)) * d → Even p

@[simp] theorem unitsOfPlace_natCast (r : Nat) : unitsOfPlace r = unitsOfRank r := by
  unfold unitsOfPlace
  rw [if_neg (by omega), Int.natAbs_natCast]

theorem unitsOfPlace_neg (p : Int) : unitsOfPlace (-p) = -unitsOfPlace p := by
  unfold unitsOfPlace
  rw [Int.natAbs_neg]
  rcases Int.lt_trichotomy p 0 with h | rfl | h
  · rw [if_neg (by omega), if_pos h, Int.neg_neg]
  · simp
  · rw [if_pos (by omega), if_neg (by omega)]

namespace RoundsToPlace

variable {p z : Int} {d : Nat}

/-- The mirror image: the two ends change sides. -/
theorem neg (h : RoundsToPlace p z d) : RoundsToPlace (-p) (-z) d := by
  have hlow : unitsOfPlace (-p - 1) = -unitsOfPlace (p + 1) := by
    rw [← unitsOfPlace_neg]
    congr 1
    omega
  have hhigh : unitsOfPlace (-p + 1) = -unitsOfPlace (p - 1) := by
    rw [← unitsOfPlace_neg]
    congr 1
    omega
  have hsum : ∀ a b : Int, (-a + -b) * d = -((b + a) * d) := by
    intro a b
    ring
  have hl := h.lower
  have hu := h.upper
  constructor
  · rw [hlow, unitsOfPlace_neg, hsum]
    omega
  · intro he
    rw [hlow, unitsOfPlace_neg, hsum] at he
    exact (h.upper_even (by omega)).neg
  · rw [hhigh, unitsOfPlace_neg, hsum]
    omega
  · intro he
    rw [hhigh, unitsOfPlace_neg, hsum] at he
    exact (h.lower_even (by omega)).neg

/-- What lies in the interval of a rank lies in the interval of its place. -/
theorem of_roundsTo {r n : Nat} (hd : 0 < d) (h : RoundsTo r n d) : RoundsToPlace r n d := by
  have hnext : unitsOfPlace ((r : Int) + 1) = unitsOfRank (r + 1) := by
    rw [← unitsOfPlace_natCast]
    congr 1
  have heven : r % 2 = 0 → Even (r : Int) := by
    intro hr
    rw [Int.even_coe_nat, Nat.even_iff]
    exact hr
  have hu := h.upper
  have hlow : (unitsOfPlace ((r : Int) - 1) + unitsOfPlace r) * d ≤ 2 * n ∧
      ((unitsOfPlace ((r : Int) - 1) + unitsOfPlace r) * d = 2 * n → r % 2 = 0) := by
    rcases Nat.eq_zero_or_pos r with rfl | hr
    · -- before zero there is the least negative double
      have hsum : unitsOfPlace (((0 : Nat) : Int) - 1) + unitsOfPlace ((0 : Nat) : Int) = -1 := by decide
      rw [hsum]
      omega
    · have hbefore : unitsOfPlace ((r : Int) - 1) = unitsOfRank (r - 1) := by
        rw [← unitsOfPlace_natCast]
        congr 1
        omega
      rw [hbefore, unitsOfPlace_natCast]
      have hl := h.lower hr
      exact ⟨by exact_mod_cast hl, fun he => h.lower_even hr (by exact_mod_cast he)⟩
  constructor
  · exact hlow.1
  · exact fun he => heven (hlow.2 he)
  · rw [hnext, unitsOfPlace_natCast]
    exact_mod_cast hu
  · intro he
    rw [hnext, unitsOfPlace_natCast] at he
    exact heven (h.upper_even (by exact_mod_cast he))

/-- No double at a later place is closer, and only the next one can be as close. -/
theorem after (h : RoundsToPlace p z d) (hd : 0 < d) {q : Int} (hpq : p < q) :
    |unitsOfPlace p * d - z| ≤ |unitsOfPlace q * d - z| ∧
      (|unitsOfPlace q * d - z| = |unitsOfPlace p * d - z| → Even p) := by
  have hstep : unitsOfPlace p * d < unitsOfPlace q * d :=
    Int.mul_lt_mul_of_pos_right (unitsOfPlace_lt hpq) (by omega)
  have hnext : unitsOfPlace (p + 1) * d ≤ unitsOfPlace q * d :=
    Int.mul_le_mul_of_nonneg_right (unitsOfPlace_le_iff.2 hpq) (by omega)
  have hu := h.upper
  have he := h.upper_even
  rw [Int.add_mul] at hu he
  rw [abs_of_nonneg (show 0 ≤ unitsOfPlace q * d - z by omega)]
  constructor
  · rw [abs_le]
    omega
  · intro heq
    rcases abs_choice (unitsOfPlace p * d - z) with ha | ha
    · omega
    · exact he (by omega)

/-- No double is closer than the one at the place, and another one is as close only if the place
    is even. -/
theorem closest (h : RoundsToPlace p z d) (hd : 0 < d) (q : Int) :
    |unitsOfPlace p * d - z| ≤ |unitsOfPlace q * d - z| ∧
      (q ≠ p → |unitsOfPlace q * d - z| = |unitsOfPlace p * d - z| → Even p) := by
  have hneg : ∀ a : Int, |unitsOfPlace (-a) * d - -z| = |unitsOfPlace a * d - z| := by
    intro a
    rw [unitsOfPlace_neg, ← abs_neg]
    congr 1
    ring
  rcases Int.lt_trichotomy p q with hlt | rfl | hgt
  · obtain ⟨h1, h2⟩ := h.after hd hlt
    exact ⟨h1, fun _ => h2⟩
  · exact ⟨Int.le_refl _, fun hne => absurd rfl hne⟩
  · obtain ⟨h1, h2⟩ := h.neg.after hd (q := -q) (by omega)
    rw [hneg, hneg] at h1 h2
    refine ⟨h1, fun _ he => ?_⟩
    have := (h2 he).neg
    rwa [Int.neg_neg] at this

end RoundsToPlace

/-! ## The closest double -/

/-- No finite double is closer to the number. If another one is as close, the rank of this one is
    even. -/
structure Closest (x : Binary64) (q : ℚ) : Prop where
  finite : x.isFinite = true
  near : ∀ y : Binary64, y.isFinite = true → |x.toRat - q| ≤ |y.toRat - q|
  even : ∀ y : Binary64, y.isFinite = true → y.toRat ≠ x.toRat → |y.toRat - q| = |x.toRat - q| →
    ∃ p, x.place? = some p ∧ Even p

/-- The distance to a quotient of units, over a common denominator. -/
theorem abs_toRat_sub (x : Binary64) (z : Int) {d : Nat} (hd : 0 < d) :
    |x.toRat - (z : ℚ) / (d * 2 ^ 1074)| = ((|x.units * d - z| : Int) : ℚ) / (d * 2 ^ 1074) := by
  have hden : (0 : ℚ) < d * 2 ^ 1074 := by positivity
  have hdiff : x.toRat - (z : ℚ) / (d * 2 ^ 1074) = ((x.units * d - z : Int) : ℚ) / (d * 2 ^ 1074) := by
    unfold toRat
    push_cast
    field_simp
  rw [hdiff, abs_div, abs_of_pos hden, Int.cast_abs]

theorem closest_of_place {x : Binary64} {p z : Int} {d : Nat} (hd : 0 < d) (hx : x.isFinite = true)
    (hp : x.place? = some p) (h : RoundsToPlace p z d) : x.Closest (z / (d * 2 ^ 1074)) := by
  have hden : (0 : ℚ) < d * 2 ^ 1074 := by positivity
  have hunits : ∀ {y : Binary64} {a : Int}, y.isFinite = true → y.place? = some a → y.units = unitsOfPlace a := by
    intro y a hy ha
    obtain ⟨b, hb, -, hu⟩ := isFinite_iff.1 hy
    rw [ha, Option.some.injEq] at hb
    rw [hu, hb]
  refine ⟨hx, ?_, ?_⟩
  · intro y hy
    obtain ⟨a, ha, -⟩ := isFinite_iff.1 hy
    rw [abs_toRat_sub x z hd, abs_toRat_sub y z hd, div_le_div_iff_of_pos_right hden, Int.cast_le,
      hunits hx hp, hunits hy ha]
    exact (h.closest hd a).1
  · intro y hy hne heq
    obtain ⟨a, ha, -⟩ := isFinite_iff.1 hy
    rw [abs_toRat_sub x z hd, abs_toRat_sub y z hd, div_left_inj' hden.ne', Int.cast_inj, hunits hx hp,
      hunits hy ha] at heq
    refine ⟨p, hp, (h.closest hd a).2 ?_ heq⟩
    intro hap
    apply hne
    unfold toRat
    rw [hunits hx hp, hunits hy ha, hap]

/-! ## What is rounded -/

/-- A quotient of units is rounded to the closest double, if that is finite. -/
theorem closest_ofUnits {s : Bool} {n d : Nat} (hd : 0 < d) (h : (ofUnits s n d).isFinite = true) :
    (ofUnits s n d).Closest (((if s then -(n : Int) else n : Int) : ℚ) / (d * 2 ^ 1074)) := by
  have hr : nearestRank n d < topRank := isFinite_ofRank_iff.1 h
  have hplace := RoundsToPlace.of_roundsTo hd (roundsTo_nearestRank n hd)
  have hx : ofUnits s n d = .finite s ⟨nearestRank n d, hr⟩ := ofRank_eq s hr
  have hp := place?_finite s ⟨nearestRank n d, hr⟩
  refine closest_of_place (p := if s then -(nearestRank n d : Int) else nearestRank n d) hd h ?_ ?_
  · rw [hx, hp]
  · cases s
    · simpa only [Bool.false_eq_true, if_false] using hplace
    · simpa only [if_true] using hplace.neg

theorem closest_ofQuotient {s : Bool} {n d : Nat} (hd : 0 < d) (h : (ofQuotient s n d).isFinite = true) :
    (ofQuotient s n d).Closest (if s then -((n : ℚ) / d) else (n : ℚ) / d) := by
  have hvalue : (((if s then -((n * Nat.pow 2 1074 : Nat) : Int) else (n * Nat.pow 2 1074 : Nat) : Int) : ℚ)
      / (d * 2 ^ 1074)) = if s then -((n : ℚ) / d) else (n : ℚ) / d := by
    have hquotient : ((n * Nat.pow 2 1074 : Nat) : ℚ) / (d * 2 ^ 1074) = n / d := by
      rw [Nat.pow_eq, Nat.cast_mul, Nat.cast_pow, Nat.cast_ofNat, mul_div_mul_right _ _ (by positivity)]
    cases s
    · simp only [Bool.false_eq_true, if_false, Int.cast_natCast, hquotient]
    · simp only [if_true, Int.cast_neg, Int.cast_natCast, neg_div, hquotient]
  have hclosest := closest_ofUnits hd h
  rwa [hvalue] at hclosest

/-- A finite sum of finite doubles is the double closest to the exact sum. -/
theorem closest_add {x y : Binary64} (hx : x.isFinite = true) (hy : y.isFinite = true)
    (h : (x.add y).isFinite = true) : (x.add y).Closest (x.toRat + y.toRat) := by
  have hsum : x.toRat + y.toRat = ((x.units + y.units : Int) : ℚ) / ((1 : Nat) * 2 ^ 1074) := by
    unfold toRat
    rw [Int.cast_add, add_div, Nat.cast_one, one_mul]
  obtain ⟨p, hp, hlt, -⟩ := isFinite_iff.1 h
  rw [hsum]
  refine closest_of_place Nat.one_pos h hp ?_
  -- the place is that of the nearest rank, on the side of the sum
  have hplace := place?_add hx hy
  rw [hp, Option.some.injEq, nearestPlace, placeOf] at hplace
  have hrank := RoundsToPlace.of_roundsTo Nat.one_pos (roundsTo_nearestRank (x.units + y.units).natAbs Nat.one_pos)
  have hmin : Nat.min (nearestRank (x.units + y.units).natAbs 1) topRank
      = nearestRank (x.units + y.units).natAbs 1 := by
    rcases Nat.le_total (nearestRank (x.units + y.units).natAbs 1) topRank with hle | hle
    · exact Nat.min_eq_left hle
    · rw [show Nat.min _ topRank = topRank from Nat.min_eq_right hle] at hplace
      split at hplace <;> omega
  rw [hmin] at hplace
  by_cases hneg : x.units + y.units < 0
  · rw [if_pos (by simpa using hneg)] at hplace
    have hmirror := hrank.neg
    rwa [← hplace, show -(((x.units + y.units).natAbs : Nat) : Int) = x.units + y.units by omega] at hmirror
  · rw [if_neg (by simpa using hneg)] at hplace
    rwa [← hplace, show (((x.units + y.units).natAbs : Nat) : Int) = x.units + y.units by omega] at hrank

/-! ## Multiples of a power of two -/

/-- A multiple of 2^-e with a significand of 53 bits is a double. -/
theorem exists_toRat_eq {m : Int} (hm : m.natAbs ≤ 2 ^ 53) {e : Nat} (he : e ≤ 1074) :
    ∃ y : Binary64, y.isFinite = true ∧ y.toRat = m / 2 ^ e := by
  obtain ⟨r, hr⟩ := exists_unitsOfRank hm (1074 - e)
  have htop : r < topRank := by
    refine lt_topRank (n := 2 ^ 53) ?_ (Nat.pow_lt_pow_right (by decide) (by decide))
    rw [hr]
    exact Nat.mul_le_mul hm (Nat.pow_le_pow_right (by decide) (by omega))
  have hpow : (2 : ℚ) ^ 1074 = 2 ^ (1074 - e) * 2 ^ e := by
    rw [← pow_add, Nat.sub_add_cancel he]
  refine ⟨.finite (decide (m < 0)) ⟨r, htop⟩, rfl, ?_⟩
  have hunits : (Binary64.finite (decide (m < 0)) ⟨r, htop⟩).units = m * 2 ^ (1074 - e) := by
    have hmagnitude : (unitsOfRank r : Int) = m.natAbs * 2 ^ (1074 - e) := by exact_mod_cast hr
    rcases lt_or_ge m 0 with hneg | hpos
    · rw [decide_eq_true hneg, units_finite, if_pos rfl, unitsOfPlace_neg, unitsOfPlace_natCast, hmagnitude,
        ← Int.neg_mul, Int.ofNat_natAbs_of_nonpos hneg.le, Int.neg_neg]
    · rw [decide_eq_false (Int.not_lt.2 hpos), units_finite, if_neg Bool.false_ne_true, unitsOfPlace_natCast, hmagnitude,
        Int.natAbs_of_nonneg hpos]
  rw [toRat, hunits, hpow, Int.cast_mul, Int.cast_pow, Int.cast_ofNat]
  field_simp

/-- Where the multiples of 2^-e are doubles, the closest one is at most half of 2^-e away. -/
theorem Closest.near_step {x : Binary64} {q : ℚ} (h : x.Closest q) {e : Nat} (he : e ≤ 1074)
    (hq : |q| ≤ 2 ^ 53 / 2 ^ e) : |x.toRat - q| ≤ 1 / (2 * 2 ^ e) := by
  have hpos : (0 : ℚ) < 2 ^ e := by positivity
  have hround := abs_sub_round (q * 2 ^ e)
  have hm : (round (q * 2 ^ e)).natAbs ≤ 2 ^ 53 := by
    rw [le_div_iff₀ hpos, ← abs_of_pos hpos, ← abs_mul, abs_le] at hq
    rw [abs_le] at hround
    have hhigh : (round (q * 2 ^ e) : ℚ) < (2 ^ 53 + 1 : Int) := by
      push_cast
      linarith
    have hlow : ((-(2 ^ 53 + 1) : Int) : ℚ) < round (q * 2 ^ e) := by
      push_cast
      linarith
    rw [Int.cast_lt] at hhigh hlow
    omega
  obtain ⟨y, hy, hvalue⟩ := exists_toRat_eq hm he
  calc |x.toRat - q| ≤ |y.toRat - q| := h.near y hy
    _ = |q * 2 ^ e - round (q * 2 ^ e)| / 2 ^ e := by
      rw [hvalue, abs_sub_comm, ← abs_of_pos hpos, ← abs_div, abs_of_pos hpos]
      congr 1
      field_simp
    _ ≤ 1 / 2 / 2 ^ e := by gcongr
    _ = 1 / (2 * 2 ^ e) := by rw [div_div]

end Binary64

/-- A decimal is read as the double closest to it, if that is finite. -/
theorem Decimal.closest_toBinary64 {s : Bool} {d : Decimal} (h : (d.toBinary64 s).isFinite = true) :
    (d.toBinary64 s).Closest (if s then -d.toRat else d.toRat) := by
  rw [toBinary64_eq] at h ⊢
  rw [← quotient_toRat]
  exact Binary64.closest_ofQuotient d.quotient_pos h

end PhaseCert
