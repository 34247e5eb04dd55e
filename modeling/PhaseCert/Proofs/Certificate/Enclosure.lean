/-
  PhaseCert.Proofs.Certificate.Enclosure — what the interval of a certificate holds.

  The ends are computed with rounding, and rounding may take them towards the estimate. It
  never takes them past a double, though: a double that is at least the exact difference is at
  least the rounded one (`Binary64.sub_le`), and the same holds of sums and of the cuts at 0
  and 1. So the interval holds every double of the unit interval that is within the margin
  (`around_contains`), and the estimate itself (`around_contains_self`), which puts its ends in
  order (`around_proper`). An infinite margin gives the whole unit interval. Rounding costs at
  most 2^-54 of the margin (`around_margin`).
-/
import PhaseCert.Proofs.Binary64.Nearest
import PhaseCert.Proofs.Certificate.Normalization

namespace PhaseCert

namespace Binary64

/-! ## Cuts -/

theorem atLeast_le {x b y : Binary64} (hb : b.le y = true) (hx : x.le y = true) : (x.atLeast b).le y = true := by
  unfold atLeast
  split
  · exact hx
  · exact hb

theorem le_atMost {x b y : Binary64} (hb : y.le b = true) (hx : y.le x = true) : y.le (x.atMost b) = true := by
  unfold atMost
  split
  · exact hx
  · exact hb

theorem le_self_of_isFinite {x : Binary64} (hx : x.isFinite = true) : x.le x = true :=
  (Binary64.le_iff_units hx hx).2 (Int.le_refl _)

theorem le_atLeast {x b : Binary64} (hb : b.isFinite = true) : b.le (x.atLeast b) = true := by
  unfold atLeast
  split
  · exact Binary64.le_of_lt ‹_›
  · exact le_self_of_isFinite hb

theorem atMost_le {x b : Binary64} (hb : b.isFinite = true) : (x.atMost b).le b = true := by
  unfold atMost
  split
  · exact Binary64.le_of_lt ‹_›
  · exact le_self_of_isFinite hb

/-- Cuts keep the order of what they cut. -/
theorem atLeast_mono {x y b : Binary64} (hb : b.isFinite = true) (h : x.le y = true) :
    (x.atLeast b).le (y.atLeast b) = true := by
  apply atLeast_le (le_atLeast hb)
  unfold atLeast
  by_cases hl : b.lt y = true
  · rw [if_pos hl]
    exact h
  · rw [if_neg hl]
    rw [Bool.not_eq_true] at hl
    exact Binary64.le_trans h (Binary64.le_of_not_lt (isNaN_of_isFinite hb) (not_nan_of_le h).2 hl)

theorem atMost_mono {x y b : Binary64} (hb : b.isFinite = true) (h : x.le y = true) :
    (x.atMost b).le (y.atMost b) = true := by
  apply le_atMost (atMost_le hb)
  unfold atMost
  by_cases hl : x.lt b = true
  · rw [if_pos hl]
    exact h
  · rw [if_neg hl]
    rw [Bool.not_eq_true] at hl
    exact Binary64.le_trans (Binary64.le_of_not_lt (not_nan_of_le h).1 (isNaN_of_isFinite hb) hl) h

/-! ## Margins -/

/-- How a finite margin bounds a distance, in units. -/
theorem reaches_iff {m x y : Binary64} (hm : m.isFinite = true) :
    m.Reaches |x.toRat - y.toRat| ↔ x.units - y.units ≤ m.units ∧ y.units - x.units ≤ m.units := by
  have hr : m.Reaches |x.toRat - y.toRat| ↔ |x.toRat - y.toRat| ≤ m.toRat := by
    cases m with
    | nan => cases hm
    | infinite s => cases hm
    | finite s r => exact Iff.rfl
  rw [hr, abs_le]
  unfold toRat
  rw [← sub_div, ← neg_div, div_le_div_iff_of_pos_right (by positivity),
    div_le_div_iff_of_pos_right (by positivity), ← Int.cast_sub, ← Int.cast_neg, Int.cast_le, Int.cast_le]
  omega

theorem atLeast_negative_infinity (b : Binary64) : (infinite true).atLeast b = b := by
  have hl : b.lt (infinite true) = false := by
    rw [Bool.eq_false_iff]
    intro h
    exact Binary64.not_le_of_lt h (negative_infinity_le (not_nan_of_le (Binary64.le_of_lt h)).1)
  simp [atLeast, hl]

theorem atMost_infinity {b : Binary64} (hb : b.isFinite = true) : (infinite false).atMost b = b := by
  have hl : (infinite false).lt b = false := by
    rw [Bool.eq_false_iff]
    intro h
    exact not_infinity_le hb (Binary64.le_of_lt h)
  simp [atMost, hl]

end Binary64

namespace Interval

open Binary64

/-- The ends are finite and in order, within the unit interval. -/
structure Proper (i : Interval) : Prop where
  lowerFinite : i.lower.isFinite = true
  upperFinite : i.upper.isFinite = true
  nonneg : 0 ≤ i.lower.toRat
  ordered : i.lower.toRat ≤ i.upper.toRat
  le_one : i.upper.toRat ≤ 1

theorem unit_proper : unit.Proper := by
  refine ⟨zero_isFinite, one_isFinite, ?_, ?_, ?_⟩
  · rw [show unit.lower = zero from rfl, toRat_zero]
  · rw [show unit.lower = zero from rfl, show unit.upper = one from rfl, toRat_zero, toRat_one]
    exact zero_le_one
  · rw [show unit.upper = one from rfl, toRat_one]

variable {v m x : Binary64}

/-- A double within the margin of the estimate lies in the interval around it. -/
theorem around_contains (hv : v.isFinite = true) (hm : Certificate.validMargin m = true)
    (hx : x.isFinite = true) (h0 : zero.le x = true) (h1 : x.le one = true)
    (hd : m.Reaches |x.toRat - v.toRat|) : (around v m).contains x = true := by
  unfold contains around
  rw [Bool.and_eq_true]
  rcases Certificate.validMargin_iff.1 hm with rfl | ⟨hf, -⟩
  · constructor
    · show ((v.add (infinite true)).atLeast zero).le x = true
      rw [add_infinite hv, atLeast_negative_infinity]
      exact h0
    · show x.le ((v.add (infinite false)).atMost one) = true
      rw [add_infinite hv, atMost_infinity one_isFinite]
      exact h1
  · obtain ⟨d1, d2⟩ := (reaches_iff hf).1 hd
    exact ⟨atLeast_le h0 (sub_le hv hf hx (by omega)), le_atMost h1 (le_add hv hf hx (by omega))⟩

theorem around_contains_self (hv : v.isFinite = true) (hm : Certificate.validMargin m = true)
    (h0 : zero.le v = true) (h1 : v.le one = true) : (around v m).contains v = true := by
  refine around_contains hv hm hv h0 h1 ?_
  rcases Certificate.validMargin_iff.1 hm with rfl | ⟨hf, hn⟩
  · rfl
  · have : zero.units ≤ m.units := by
      have := (lt_iff_units hf zero_isFinite).not.1 (by rw [hn]; decide)
      omega
    rw [reaches_iff hf]
    rw [show zero.units = 0 from rfl] at this
    omega

/-- The interval around an estimate of the unit interval has its ends there, in order. -/
theorem around_proper (hv : v.isFinite = true) (hm : Certificate.validMargin m = true)
    (h0 : zero.le v = true) (h1 : v.le one = true) : (around v m).Proper := by
  have hc := around_contains_self hv hm h0 h1
  unfold contains at hc
  rw [Bool.and_eq_true] at hc
  have hl0 : zero.le (around v m).lower = true := le_atLeast zero_isFinite
  have hu1 : (around v m).upper.le one = true := atMost_le one_isFinite
  have hlu := Binary64.le_trans hc.1 hc.2
  have hlf := isFinite_of_between zero_isFinite hv hl0 hc.1
  have huf := isFinite_of_between hv one_isFinite hc.2 hu1
  refine ⟨hlf, huf, ?_, (Binary64.le_iff hlf huf).1 hlu, ?_⟩
  · rw [← toRat_zero]
    exact (Binary64.le_iff zero_isFinite hlf).1 hl0
  · rw [← toRat_one]
    exact (Binary64.le_iff huf one_isFinite).1 hu1

/-- A lower end that is not cut is at least the margin away from the estimate, but for the
    rounding. -/
theorem lower_around (hv : v.isFinite = true) (hm : m.isFinite = true) (h1 : v.toRat ≤ 1) (h0 : 0 ≤ m.toRat) :
    (around v m).lower.toRat ≤ 0 ∨ (around v m).lower.toRat ≤ v.toRat - m.toRat + 1 / 2 ^ 54 := by
  have hn : m.neg.isFinite = true := by simpa using hm
  unfold around atLeast
  simp only
  split
  · rename_i hl
    right
    rcases lt_or_ge (v.toRat - m.toRat) 1 with hlt | hge
    · -- a difference that is not positive would be rounded to one that is not either
      have hpos : 0 ≤ v.toRat + m.neg.toRat := by
        by_contra hneg
        refine Binary64.not_le_of_lt hl (sub_le hv hm zero_isFinite ?_)
        have : v.toRat ≤ m.toRat := by
          rw [toRat_neg] at hneg
          linarith
        rw [toRat_le_toRat] at this
        rw [show zero.units = 0 from rfl]
        omega
      have hnear := (add_near hv hn hpos (by rw [toRat_neg]; linarith)).2
      rw [toRat_neg] at hnear
      have := (abs_le.1 hnear).2
      rw [sub]
      linarith
    · have he : v.toRat = 1 ∧ m.toRat = 0 := by
        constructor <;> linarith
      have hsub : (v.sub m).le one = true := by
        refine sub_le hv hm one_isFinite ?_
        have hu : v.units ≤ one.units := by
          rw [← toRat_le_toRat, toRat_one]
          exact h1
        have hmu : zero.units ≤ m.units := by
          rw [← toRat_le_toRat, toRat_zero]
          exact h0
        rw [show zero.units = 0 from rfl] at hmu
        omega
      have hf := isFinite_of_between zero_isFinite one_isFinite (Binary64.le_of_lt hl) hsub
      rw [Binary64.le_iff hf one_isFinite, toRat_one] at hsub
      have : (0 : ℚ) < 1 / 2 ^ 54 := by positivity
      linarith
  · left
    rw [toRat_zero]

/-- An upper end that is not cut is at least the margin away from the estimate, but for the
    rounding. -/
theorem upper_around (hv : v.isFinite = true) (hm : m.isFinite = true) (h0 : 0 ≤ v.toRat) (h0' : 0 ≤ m.toRat) :
    1 ≤ (around v m).upper.toRat ∨ v.toRat + m.toRat - 1 / 2 ^ 54 ≤ (around v m).upper.toRat := by
  unfold around atMost
  simp only
  split
  · rename_i hl
    right
    have hlt : v.toRat + m.toRat < 1 := by
      by_contra hge
      refine Binary64.not_le_of_lt hl (le_add hv hm one_isFinite ?_)
      have : one.toRat ≤ v.toRat + m.toRat := by
        rw [toRat_one]
        exact not_lt.1 hge
      unfold toRat at this
      rw [← add_div, div_le_div_iff_of_pos_right (by positivity)] at this
      exact_mod_cast this
    have := (abs_le.1 (add_near hv hm (by linarith) hlt).2).1
    linarith
  · left
    rw [toRat_one]

/-- A margin moves both ends away from the estimate by what it reaches, but for the rounding and
    the cuts. -/
theorem around_margin (hv : v.isFinite = true) (h0 : 0 ≤ v.toRat) (h1 : v.toRat ≤ 1)
    (hm : Certificate.validMargin m = true) {q : ℚ} (hq : m.Reaches q) :
    ((around v m).lower.toRat ≤ 0 ∨ (around v m).lower.toRat ≤ v.toRat - q + 1 / 2 ^ 54) ∧
      (1 ≤ (around v m).upper.toRat ∨ v.toRat + q - 1 / 2 ^ 54 ≤ (around v m).upper.toRat) := by
  rcases Certificate.validMargin_iff.1 hm with rfl | ⟨hf, hn⟩
  · constructor
    · left
      show ((v.add (infinite true)).atLeast zero).toRat ≤ 0
      rw [add_infinite hv, atLeast_negative_infinity, toRat_zero]
    · left
      show 1 ≤ ((v.add (infinite false)).atMost one).toRat
      rw [add_infinite hv, atMost_infinity one_isFinite, toRat_one]
  · have hq : q ≤ m.toRat := by
      cases m with
      | nan => cases hf
      | infinite s => cases hf
      | finite s r => exact hq
    have hm0 : 0 ≤ m.toRat := by
      have := (Binary64.lt_iff hf zero_isFinite).not.1 (by rw [hn]; decide)
      rwa [toRat_zero, not_lt] at this
    constructor
    · exact (lower_around hv hf h1 hm0).imp_right fun h => by linarith
    · exact (upper_around hv hf h0 hm0).imp_right fun h => by linarith

end Interval

namespace Certificate

open Binary64

/-- A margin that is at least zero is valid, a negative zero among them. -/
theorem validMargin_of_le {m : Binary64} (hm : zero.le m = true) : validMargin m = true := by
  have hl : m.lt .zero = false := by
    rw [Bool.eq_false_iff]
    intro hl
    exact Binary64.not_le_of_lt hl hm
  cases m with
  | nan => cases hm
  | infinite s =>
    rw [validMargin, hl]
    rfl
  | finite s r =>
    rw [validMargin, hl]
    rfl

theorem zero_le_defaultMargin : zero.le defaultMargin = true := by decide +kernel

theorem isFinite_of_unit {v : Binary64} (h0 : zero.le v = true) (h1 : v.le one = true) : v.isFinite = true :=
  isFinite_of_between zero_isFinite one_isFinite h0 h1

/-- The interval of a certificate is proper, whatever bundle and margin it is made of. -/
theorem interval_proper {raw : Bundle} {margin : Binary64} {c : Certificate}
    (h : normalize raw margin = .ok c) : c.interval.Proper := by
  obtain ⟨hm, he, -, -, hi, -, -⟩ := normalize_ok h
  rcases estimateOf_ok he with ⟨-, e⟩ | ⟨t, v, -, -, e, h0, h1⟩
  · rw [hi, e]
    exact Interval.unit_proper
  · rw [hi, e]
    exact Interval.around_proper (isFinite_of_unit h0 h1) hm h0 h1

/-- A bundle with an estimate has a number of the unit interval there, and its certificate the
    interval around that. -/
theorem interval_of_estimate {raw : Bundle} {margin : Binary64} {c : Certificate} {t : Tree}
    (h : normalize raw margin = .ok c) (ht : raw.get? "delta_ph" = some t) :
    ∃ v, t.real? = some v ∧ v.isFinite = true ∧ zero.le v = true ∧ v.le one = true ∧ validMargin margin = true ∧
      c.interval = .around v margin := by
  obtain ⟨hm, he, -, -, hi, -, -⟩ := normalize_ok h
  rcases estimateOf_ok he with ⟨hn, -⟩ | ⟨t', v, ht', hr, e, h0, h1⟩
  · rw [hn] at ht
    cases ht
  · rw [ht, Option.some.injEq] at ht'
    subst ht'
    rw [e] at hi
    exact ⟨v, hr, isFinite_of_unit h0 h1, h0, h1, hm, hi⟩

/-- The interval of a certificate: proper; with an estimate, it holds it and every double of
    the unit interval that is within the margin of it; without one, it is the unit interval. -/
theorem normalize_encloses (raw : Bundle) (margin : Binary64) (c : Certificate)
    (h : normalize raw margin = .ok c) :
    c.interval.Proper ∧
    (∀ t, raw.get? "delta_ph" = some t → ∃ v, t.real? = some v ∧ v.isFinite = true ∧
      c.interval.contains v = true ∧
      ∀ x : Binary64, x.isFinite = true → 0 ≤ x.toRat → x.toRat ≤ 1 → margin.Reaches |x.toRat - v.toRat| →
        c.interval.contains x = true) ∧
    (raw.get? "delta_ph" = none → c.interval = .unit) := by
  refine ⟨interval_proper h, ?_, ?_⟩
  · intro t ht
    obtain ⟨v, hr, hv, h0, h1, hm, hi⟩ := interval_of_estimate h ht
    rw [hi]
    refine ⟨v, hr, hv, Interval.around_contains_self hv hm h0 h1, ?_⟩
    intro x hx hx0 hx1 hd
    refine Interval.around_contains hv hm hx ?_ ?_ hd
    · rw [Binary64.le_iff zero_isFinite hx, toRat_zero]
      exact hx0
    · rw [Binary64.le_iff hx one_isFinite, toRat_one]
      exact hx1
  · intro hn
    obtain ⟨-, he, -, -, hi, -, -⟩ := normalize_ok h
    rw [estimateOf_none hn, Except.ok.injEq] at he
    rw [hi, ← he]

theorem normalize_encloses_offset :
    ∃ c, normalize (Estimate.mk Placeholder.offset .placeholder).toBundle defaultMargin = .ok c ∧
      c.interval.Proper ∧ c.interval.contains Placeholder.offset = true := by
  have hf : Placeholder.offset.isFinite = true := by decide +kernel
  have h0 : zero.le Placeholder.offset = true := by decide +kernel
  have h1 : Placeholder.offset.le one = true := by decide +kernel
  have hm : validMargin defaultMargin = true := by decide +kernel
  generalize Placeholder.offset = x at hf h0 h1 ⊢
  obtain ⟨c, hc, -⟩ := normalizeEstimate_isOk (e := ⟨x, .placeholder⟩) hf h0 h1 hm
  obtain ⟨hp, he, -⟩ := normalize_encloses _ _ c hc
  obtain ⟨v, hv, -, hcv, -⟩ := he _ (get?_toBundle_bound _)
  rw [real?_ofReal hf, Option.some.injEq] at hv
  exact ⟨c, hc, hp, hv ▸ hcv⟩

end Certificate

end PhaseCert
