/-
  PhaseCert.Proofs.Binary64.Overflow — rounding to nearest over all numbers, infinities included.

  The last finite double has an odd rank, so what lies halfway from it to 2^1024 is not rounded down
  to it: `overflow` is the least magnitude that is rounded to an infinity
  (`isFinite_ofQuotient_iff`). `Nearest` is rounding to nearest said by distances and by this one
  bound. No two doubles of one sign are nearest to a number (`Nearest.unique`): of two finite
  doubles at the same distance one would have an odd rank, or a closer one would lie between them
  (`Closest.place_eq`). Every decimal is read as the double nearest to it (`nearest_toBinary64`).
-/
import PhaseCert.Proofs.Binary64.Closest

namespace PhaseCert

namespace Binary64

/-! ## The last finite double -/

/-- The least magnitude that is rounded to an infinity, halfway from the last finite double to
    2^1024. -/
def overflow : ℚ := 2 ^ 1024 - 2 ^ 970

/-- Rounding stays below an even rank exactly if the quotient is below the midpoint before it. -/
theorem nearestRank_lt_iff {r n d : Nat} (hd : 0 < d) (hr : 0 < r) (heven : r % 2 = 0) :
    nearestRank n d < r ↔ 2 * n < (unitsOfRank (r - 1) + unitsOfRank r) * d := by
  have h := roundsTo_nearestRank n hd
  constructor
  · intro hlt
    have hbefore : unitsOfRank (nearestRank n d) ≤ unitsOfRank (r - 1) := unitsOfRank_strictMono.monotone (by omega)
    have hnext : unitsOfRank (nearestRank n d + 1) ≤ unitsOfRank r := unitsOfRank_strictMono.monotone (by omega)
    have hle : (unitsOfRank (nearestRank n d) + unitsOfRank (nearestRank n d + 1)) * d
        ≤ (unitsOfRank (r - 1) + unitsOfRank r) * d := Nat.mul_le_mul_right d (by omega)
    have hupper := h.upper
    by_contra hge
    -- the quotient is the midpoint, so the rank is even and not the one just before
    have hself := h.upper_even (by omega)
    have hgap : unitsOfRank (nearestRank n d) < unitsOfRank (r - 1) := unitsOfRank_strictMono (by omega)
    have hlt' : (unitsOfRank (nearestRank n d) + unitsOfRank (nearestRank n d + 1)) * d
        < (unitsOfRank (r - 1) + unitsOfRank r) * d := Nat.mul_lt_mul_of_pos_right (by omega) hd
    omega
  · intro hlt
    by_contra hge
    have hbefore : unitsOfRank (r - 1) ≤ unitsOfRank (nearestRank n d - 1) := unitsOfRank_strictMono.monotone (by omega)
    have hself : unitsOfRank r ≤ unitsOfRank (nearestRank n d) := unitsOfRank_strictMono.monotone (by omega)
    have hle : (unitsOfRank (r - 1) + unitsOfRank r) * d
        ≤ (unitsOfRank (nearestRank n d - 1) + unitsOfRank (nearestRank n d)) * d := Nat.mul_le_mul_right d (by omega)
    have hlower := h.lower (by omega)
    omega

/-- The midpoint between the last finite double and 2^1024, in units. -/
theorem units_overflow : ((unitsOfRank (topRank - 1) + unitsOfRank topRank : Nat) : ℚ) = 2 * (2 ^ 1074 * overflow) := by
  have hlast : unitsOfRank (topRank - 1) = (2 ^ 53 - 1) * 2 ^ 2045 := by
    rw [show topRank - 1 = 2045 * 2 ^ 52 + (2 ^ 53 - 1) from rfl, unitsOfRank_shifted (by decide) (by decide)]
  have hbinade : (2 : ℚ) ^ 53 * 2 ^ 2045 = 2 ^ 1024 * 2 ^ 1074 := by rw [← pow_add, ← pow_add]
  have hstep : (2 : ℚ) ^ 2045 = 2 * (2 ^ 1074 * 2 ^ 970) := by rw [← pow_add, ← pow_succ']
  have hminus : ((2 ^ 53 - 1 : Nat) : ℚ) = 2 ^ 53 - 1 := by norm_num
  rw [hlast, unitsOfRank_topRank, overflow, Nat.cast_add, Nat.cast_mul, Nat.cast_mul, hminus, sub_mul, one_mul]
  simp only [Nat.cast_pow, Nat.cast_ofNat]
  rw [hbinade, hstep]
  generalize (2 : ℚ) ^ 1024 = a
  generalize (2 : ℚ) ^ 1074 = b
  generalize (2 : ℚ) ^ 970 = c
  ring

/-- A power of two that is a double is less than the overflow. -/
theorem two_pow_lt_overflow {e : Nat} (he : e ≤ 1023) : (2 : ℚ) ^ e < overflow := by
  have hle : (2 : ℚ) ^ e ≤ 2 ^ 1023 := pow_le_pow_right₀ one_le_two he
  have hlast : (2 : ℚ) ^ 970 < 2 ^ 1023 := pow_lt_pow_right₀ one_lt_two (by decide)
  have hdouble : (2 : ℚ) ^ 1024 = 2 ^ 1023 + 2 ^ 1023 := by rw [pow_succ, mul_two]
  rw [overflow, hdouble]
  generalize (2 : ℚ) ^ 1023 = a at hle hlast ⊢
  linarith

/-- A quotient is rounded to a finite double exactly if it is less than the overflow. -/
theorem isFinite_ofQuotient_iff {s : Bool} {n d : Nat} (hd : 0 < d) :
    (ofQuotient s n d).isFinite = true ↔ (n : ℚ) / d < overflow := by
  have hunit : (0 : ℚ) < 2 ^ 1074 := by positivity
  have hpos : (0 : ℚ) < d := by exact_mod_cast hd
  rw [Decimal.ofQuotient_eq, isFinite_ofRank_iff, nearestRank_lt_iff hd topRank_pos (by decide), div_lt_iff₀ hpos,
    ← Nat.cast_lt (α := ℚ), Nat.cast_mul, Nat.cast_mul _ d, units_overflow, Nat.cast_mul, Nat.cast_pow, Nat.cast_ofNat]
  generalize (2 : ℚ) ^ 1074 = unit at hunit ⊢
  rw [show (2 : ℚ) * (n * unit) = 2 * unit * n by ring,
    show (2 : ℚ) * (unit * overflow) * d = 2 * unit * (overflow * d) by ring]
  exact mul_lt_mul_iff_right₀ (by positivity)

/-! ## The nearest double -/

/-- A finite double at every place short of the infinities. -/
theorem exists_place_eq {p : Int} (hp : p.natAbs < topRank) :
    ∃ x : Binary64, x.isFinite = true ∧ x.units = unitsOfPlace p := by
  refine ⟨.finite (decide (p < 0)) ⟨p.natAbs, hp⟩, rfl, ?_⟩
  rw [units_finite]
  congr 1
  by_cases hneg : p < 0
  · simp only [hneg, decide_true, if_true]
    omega
  · simp only [hneg, decide_false, Bool.false_eq_true, if_false]
    omega

/-- Of two doubles that are closest to one number, neither is at a later place. -/
theorem Closest.not_place_lt {x y : Binary64} {q : ℚ} {a b : Int} (h : x.Closest q) (h' : y.Closest q)
    (ha : x.place? = some a) (hb : y.place? = some b) : ¬a < b := by
  intro hab
  obtain ⟨a', ha', halt, hx⟩ := isFinite_iff.1 h.finite
  obtain ⟨b', hb', hblt, hy⟩ := isFinite_iff.1 h'.finite
  rw [ha, Option.some.injEq] at ha'
  rw [hb, Option.some.injEq] at hb'
  subst ha' hb'
  have hlt : x.toRat < y.toRat := toRat_lt_toRat.2 (by rw [hx, hy]; exact unitsOfPlace_lt hab)
  have heq : |y.toRat - q| = |x.toRat - q| := le_antisymm (h'.near x h.finite) (h.near y h'.finite)
  obtain ⟨a', ha', hxeven⟩ := h.even y h'.finite hlt.ne' heq
  obtain ⟨b', hb', hyeven⟩ := h'.even x h.finite hlt.ne heq.symm
  rw [ha, Option.some.injEq] at ha'
  rw [hb, Option.some.injEq] at hb'
  subst ha' hb'
  -- both places are even, so there is a double between them, and it is closer
  have hgap : a + 1 < b := by
    obtain ⟨k, hk⟩ := hxeven
    obtain ⟨m, hm⟩ := hyeven
    omega
  obtain ⟨z, hz, hunits⟩ := exists_place_eq (p := a + 1) (by omega)
  have hxz : x.toRat < z.toRat := toRat_lt_toRat.2 (by rw [hx, hunits]; exact unitsOfPlace_lt (by omega))
  have hzy : z.toRat < y.toRat := toRat_lt_toRat.2 (by rw [hunits, hy]; exact unitsOfPlace_lt hgap)
  have hmiddle : y.toRat - q = q - x.toRat := by
    rcases abs_eq_abs.1 heq with he | he
    · linarith
    · rw [he, neg_sub]
  have hdistance : |x.toRat - q| = q - x.toRat := by
    rw [← heq, hmiddle, abs_of_pos]
    linarith
  have hcloser : |z.toRat - q| < |x.toRat - q| := by
    rw [hdistance, abs_lt]
    constructor <;> linarith
  exact absurd (h.near z hz) (not_le.2 hcloser)

theorem Closest.place_eq {x y : Binary64} {q : ℚ} (h : x.Closest q) (h' : y.Closest q) : x.place? = y.place? := by
  obtain ⟨a, ha, -⟩ := isFinite_iff.1 h.finite
  obtain ⟨b, hb, -⟩ := isFinite_iff.1 h'.finite
  have hab := h.not_place_lt h' ha hb
  have hba := h'.not_place_lt h hb ha
  rw [ha, hb, show a = b by omega]

/-- The number is rounded to this double: to an infinity from the overflow on, and otherwise to the
    closest finite double. The sign is given, as a zero can have either. -/
inductive Nearest (negative : Bool) (q : ℚ) : Binary64 → Prop
  | finite {r : Fin topRank} : |q| < overflow → (Binary64.finite negative r).Closest q →
      Nearest negative q (.finite negative r)
  | infinite : overflow ≤ |q| → Nearest negative q (.infinite negative)

theorem Nearest.unique {negative : Bool} {q : ℚ} {x y : Binary64} (h : Nearest negative q x)
    (h' : Nearest negative q y) : x = y := by
  cases h with
  | finite hq hx =>
    cases h' with
    | finite _ hy =>
      have hplace := hx.place_eq hy
      rw [place?_finite, place?_finite, Option.some.injEq] at hplace
      congr 1
      apply Fin.ext
      cases negative
      · simpa using hplace
      · simpa using hplace
    | infinite hq' => exact absurd hq (not_lt.2 hq')
  | infinite hq =>
    cases h' with
    | finite hq' _ => exact absurd hq' (not_lt.2 hq)
    | infinite _ => rfl

end Binary64

namespace Decimal

open Binary64

/-- A decimal is read as a finite double exactly if it is less than the overflow. -/
theorem isFinite_toBinary64_iff {s : Bool} {d : Decimal} : (d.toBinary64 s).isFinite = true ↔ d.toRat < overflow := by
  rw [toBinary64_eq, isFinite_ofQuotient_iff d.quotient_pos, quotient_toRat]

/-- A decimal is read as the double nearest to it. -/
theorem nearest_toBinary64 (s : Bool) (d : Decimal) :
    Nearest s (if s then -d.toRat else d.toRat) (d.toBinary64 s) := by
  by_cases hd : d.toRat < overflow
  · have hfinite : (d.toBinary64 s).isFinite = true := isFinite_toBinary64_iff.2 hd
    have hclosest := closest_toBinary64 hfinite
    rw [toBinary64_eq, ofQuotient_eq] at hfinite hclosest ⊢
    rw [ofRank_eq s (isFinite_ofRank_iff.1 hfinite)] at hclosest ⊢
    exact .finite (by rwa [abs_signed]) hclosest
  · have hinfinite : ¬(d.toBinary64 s).isFinite = true := fun h => hd (isFinite_toBinary64_iff.1 h)
    rw [toBinary64_eq, ofQuotient_eq] at hinfinite ⊢
    rw [ofRank, dif_neg fun h => hinfinite (isFinite_ofRank h)]
    exact .infinite (by rw [abs_signed]; exact not_lt.1 hd)

end Decimal

end PhaseCert
