/-
  PhaseCert.Proofs.Certificate.Placeholder — the bound of the placeholder, and its certificate.

  The observed error rate plus the offset is cut at 0 and 1/2, so the bound lies between them
  whatever was observed (`bound_between`), and every margin that is not negative makes a
  certificate of it (`normalizeEstimate_isOk`). A larger rate never gives a smaller bound
  (`bound_mono`), and no rate up to 1/2 is above its bound (`le_bound`): the sum is rounded, but
  the offset is not negative, and a rounded sum keeps to the side of a term that is a double. The
  bound is never the negative zero: a sum is that only if both terms are, and the offset is not
  (`bound_ne_negative_zero`). So neither is an end of the interval around it, whatever the margin
  (`around_ne_negative_zero`).

  Between the cuts the bound is the sum itself (`bound_of_between`). No sum is too large for a
  double (`isFinite_add_offset`), so each is the double closest to the exact sum. That and all of
  the above, for every observation, is `bound_spec`.
-/
import PhaseCert.Proofs.Binary64.Closest
import PhaseCert.Proofs.Certificate.Enclosure

namespace PhaseCert

namespace Placeholder

open Binary64

/-! ## The bound -/

theorem offset_pos : offset.isFinite = true ∧ zero.lt offset = true := by decide +kernel

theorem offset_isFinite : offset.isFinite = true := offset_pos.1

/-- What the bound is of a sum that is a number: the cut it is past, or itself between them. -/
theorem bound_cases {x : Binary64} (hn : (x.add offset).isNaN = false) :
    ((x.add offset).lt zero = true ∧ bound x = zero) ∨ (half.lt (x.add offset) = true ∧ bound x = half) ∨
      (zero.le (x.add offset) = true ∧ (x.add offset).le half = true ∧ bound x = x.add offset) := by
  have hz : zero.isNaN = false := isNaN_of_isFinite zero_isFinite
  have hh : half.isNaN = false := isNaN_of_isFinite half_isFinite
  unfold bound
  simp only [hn, Bool.false_eq_true, if_false]
  by_cases hl : (x.add offset).lt zero = true
  · rw [if_pos hl]
    exact .inl ⟨hl, rfl⟩
  rw [if_neg hl]
  rw [Bool.not_eq_true] at hl
  by_cases hu : half.lt (x.add offset) = true
  · rw [if_pos hu]
    exact .inr (.inl ⟨hu, rfl⟩)
  rw [if_neg hu]
  rw [Bool.not_eq_true] at hu
  exact .inr (.inr ⟨Binary64.le_of_not_lt hn hz hl, Binary64.le_of_not_lt hh hn hu, rfl⟩)

theorem bound_of_nan {x : Binary64} (hn : (x.add offset).isNaN = true) : bound x = half := by
  simp [bound, hn]

/-- The bound is between 0 and 1/2, whatever was observed. -/
theorem bound_between (x : Binary64) : zero.le (bound x) = true ∧ (bound x).le half = true := by
  have h0 : zero.le half = true := Binary64.le_of_lt zero_lt_half
  cases hn : (x.add offset).isNaN with
  | true =>
    rw [bound_of_nan hn]
    exact ⟨h0, le_self_of_isFinite half_isFinite⟩
  | false =>
    rcases bound_cases hn with ⟨-, e⟩ | ⟨-, e⟩ | ⟨h0', h1, e⟩
    · rw [e]
      exact ⟨le_self_of_isFinite zero_isFinite, h0⟩
    · rw [e]
      exact ⟨h0, le_self_of_isFinite half_isFinite⟩
    · rw [e]
      exact ⟨h0', h1⟩

theorem bound_isFinite (x : Binary64) : (bound x).isFinite = true :=
  isFinite_of_between zero_isFinite half_isFinite (bound_between x).1 (bound_between x).2

/-- A larger error rate has no smaller bound. -/
theorem bound_mono {x y : Binary64} (h : x.le y = true) : (bound x).le (bound y) = true := by
  have hsum : (x.add offset).le (y.add offset) = true := by
    rw [Binary64.add_comm x, Binary64.add_comm y]
    exact Binary64.add_le_add offset_isFinite offset_isFinite (le_self_of_isFinite offset_isFinite) h
  obtain ⟨hx, hy⟩ := not_nan_of_le hsum
  rcases bound_cases hx with ⟨-, e⟩ | ⟨hl, e⟩ | ⟨h0, h1, e⟩
  · rw [e]
    exact (bound_between y).1
  · -- past the upper cut, and then so is the larger sum
    rcases bound_cases hy with ⟨hl', -⟩ | ⟨-, e'⟩ | ⟨-, h1', -⟩
    · have := Binary64.le_trans hsum (Binary64.le_trans (Binary64.le_of_lt hl') (Binary64.le_of_lt zero_lt_half))
      exact absurd this (Binary64.not_le_of_lt hl)
    · rw [e, e']
      exact le_self_of_isFinite half_isFinite
    · exact absurd (Binary64.le_trans hsum h1') (Binary64.not_le_of_lt hl)
  · rcases bound_cases hy with ⟨hl', -⟩ | ⟨-, e'⟩ | ⟨-, -, e'⟩
    · exact absurd (Binary64.le_trans h0 hsum) (Binary64.not_le_of_lt hl')
    · rw [e, e']
      exact h1
    · rw [e, e']
      exact hsum

/-- The bound is not the negative zero, whatever zero was observed. -/
theorem bound_ne_negative_zero (x : Binary64) : bound x ≠ zero.neg := by
  cases hn : (x.add offset).isNaN with
  | true =>
    rw [bound_of_nan hn]
    exact ne_negative_zero_of_pos zero_lt_half
  | false =>
    rcases bound_cases hn with ⟨-, e⟩ | ⟨-, e⟩ | ⟨-, -, e⟩
    · rw [e]
      exact zero_ne_negative_zero
    · rw [e]
      exact ne_negative_zero_of_pos zero_lt_half
    · rw [e]
      intro h
      exact ne_negative_zero_of_pos offset_pos.2 (add_eq_negative_zero h).2

theorem le_add_offset {x : Binary64} (hx : x.isFinite = true) : x.le (x.add offset) = true := by
  have hpos := (lt_iff_units zero_isFinite offset_isFinite).1 offset_pos.2
  have hzero : zero.units = 0 := rfl
  exact le_add hx offset_isFinite hx (by omega)

/-- The offset is less than the step before the last double, so no sum with it is too large. -/
theorem isFinite_add_offset {x : Binary64} (hx : x.isFinite = true) : (x.add offset).isFinite = true := by
  have hstep : nearestPlace (unitsOfRank (topRank - 1) + offset.units) = ((topRank - 1 : Nat) : Int) := by decide +kernel
  obtain ⟨p, -, hp, hunits⟩ := isFinite_iff.1 hx
  have hlast : x.units ≤ unitsOfRank (topRank - 1) := by
    rw [hunits, ← unitsOfPlace_natCast, unitsOfPlace_le_iff]
    omega
  have hplace : nearestPlace (x.units + offset.units) ≤ ((topRank - 1 : Nat) : Int) := by
    rw [← hstep]
    exact nearestPlace_mono (by omega)
  refine isFinite_of_between hx (z := .finite false ⟨topRank - 1, Nat.sub_lt topRank_pos Nat.one_pos⟩) rfl
    (le_add_offset hx) ?_
  exact le_eq_true.2 ⟨_, _, place?_add hx offset_isFinite, rfl, hplace⟩

/-- A rate up to 1/2 is not above its bound. -/
theorem le_bound {x : Binary64} (h : x.le half = true) : x.le (bound x) = true := by
  have hsum : (x.add offset).isNaN = false := by
    rw [Binary64.add_comm]
    exact add_isNaN offset_isFinite (not_nan_of_le h).1
  have hle : x.le (x.add offset) = true := by
    rcases number_cases (not_nan_of_le h).1 with rfl | hx | rfl
    · exact negative_infinity_le hsum
    · exact le_add_offset hx
    · exact absurd h (not_infinity_le half_isFinite)
  rcases bound_cases hsum with ⟨hl, e⟩ | ⟨-, e⟩ | ⟨-, -, e⟩
  · rw [e]
    exact Binary64.le_trans hle (Binary64.le_of_lt hl)
  · rw [e]
    exact h
  · rw [e]
    exact hle

/-- A sum within the cuts is the bound. -/
theorem bound_of_between {x : Binary64} (h0 : zero.le (x.add offset) = true) (h1 : (x.add offset).le half = true) :
    bound x = x.add offset := by
  rcases bound_cases (not_nan_of_le h1).1 with ⟨hl, -⟩ | ⟨hu, -⟩ | ⟨-, -, e⟩
  · exact absurd h0 (Binary64.not_le_of_lt hl)
  · exact absurd h1 (Binary64.not_le_of_lt hu)
  · exact e

/-- The offset is the double closest to 0.03. -/
theorem closest_offset : offset.Closest (3 / 100) := by
  have hclosest := Decimal.closest_toBinary64 (s := false) (d := ⟨3, -2⟩) offset_isFinite
  have hvalue : (Decimal.mk 3 (-2)).toRat = 3 / 100 := by
    norm_num [Decimal.toRat]
  rwa [if_neg Bool.false_ne_true, hvalue] at hclosest

/-- The bound of any observation: between 0 and 1/2, never NaN and never the negative zero; 1/2 for
    a NaN; in the order of the observations; not below an observation up to 1/2; and the sum with
    0.03 itself where that lies between 0 and 1/2. The sum is the double closest to the exact sum
    of the offset and any finite observation. -/
theorem bound_spec (x y : Binary64) :
    (zero.le (bound x) = true ∧ (bound x).le half = true ∧ (bound x).isNaN = false ∧ bound x ≠ zero.neg) ∧
      (x.isNaN = true → bound x = half) ∧
      (x.le y = true → (bound x).le (bound y) = true) ∧
      (x.le half = true → x.le (bound x) = true) ∧
      (zero.le (x.add offset) = true → (x.add offset).le half = true → bound x = x.add offset) ∧
      offset.Closest (3 / 100) ∧
      (x.isFinite = true → (x.add offset).Closest (x.toRat + offset.toRat)) := by
  obtain ⟨h0, h1⟩ := bound_between x
  refine ⟨⟨h0, h1, (not_nan_of_le h1).1, bound_ne_negative_zero x⟩, ?_, bound_mono, le_bound, bound_of_between,
    closest_offset, ?_⟩
  · intro hn
    cases x with
    | nan => exact bound_of_nan rfl
    | infinite s => cases hn
    | finite s r => cases hn
  · intro hx
    exact closest_add hx offset_isFinite (isFinite_add_offset hx)

/-- A sum with the bound is not the negative zero either, so no end of the interval is. -/
theorem around_ne_negative_zero (x margin : Binary64) :
    (Interval.around (bound x) margin).lower ≠ zero.neg ∧ (Interval.around (bound x) margin).upper ≠ zero.neg := by
  have hsum : ∀ y, (bound x).add y ≠ zero.neg := by
    intro y h
    exact bound_ne_negative_zero x (add_eq_negative_zero h).1
  unfold Interval.around atLeast atMost
  constructor
  · simp only
    split
    · exact hsum margin.neg
    · exact zero_ne_negative_zero
  · simp only
    split
    · exact hsum margin
    · exact ne_negative_zero_of_pos zero_lt_one

/-! ## The certificate -/

/-- The placeholder's estimate is normalised with every margin that is not negative. -/
theorem normalizeEstimate_isOk (p : Protocol) {margin : Binary64} (hm : zero.le margin = true) :
    ∃ c, Certificate.normalizeEstimate (estimate p) margin = .ok c := by
  have hone : (bound p.observed.conclusiveErrorRate).le .one = true :=
    Binary64.le_trans (bound_between _).2 (Binary64.le_of_lt half_lt_one)
  obtain ⟨c, hc, -⟩ := Certificate.normalizeEstimate_isOk (e := estimate p) (bound_isFinite _) (bound_between _).1 hone
    (Certificate.validMargin_of_le hm)
  exact ⟨c, hc⟩

/-- The certificate of the placeholder's estimate has the interval around its bound. -/
theorem interval_of_normalizeEstimate {p : Protocol} {margin : Binary64} {c : Certificate}
    (h : Certificate.normalizeEstimate (estimate p) margin = .ok c) :
    c.interval = .around (bound p.observed.conclusiveErrorRate) margin := by
  obtain ⟨v, hv, -, -, -, -, hi⟩ := Certificate.interval_of_estimate h (Certificate.get?_toBundle_bound _)
  rw [estimate, Certificate.real?_ofReal (bound_isFinite _), Option.some.injEq] at hv
  rw [hi, ← hv]

end Placeholder

end PhaseCert
