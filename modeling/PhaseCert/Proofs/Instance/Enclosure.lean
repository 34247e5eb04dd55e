/-
  PhaseCert.Proofs.Instance.Enclosure — how the interval of a text lies around the estimate.

  The ends of a certificate's interval lie on both sides of the estimate, but a text has each end
  with ten places, rounded to the nearest and not outwards. So the interval of a text lies around
  the estimate as that would be written, and may miss the estimate itself by half a unit of the
  last place (`source_encloses`): an estimate a little below what it is written as, with no
  margin, is below both ends (`source_misses_estimate`). A margin that makes up for both
  roundings keeps the estimate between the ends.
-/
import PhaseCert.Proofs.Instance.Soundness

namespace PhaseCert.Instance

/-- Half a unit of the last place of a text. -/
def halfPlace : ℚ := 1 / (2 * 10 ^ realPlaces)

/-! ## One end -/

section

variable {x v : Binary64}

/-- A number that is not above another is written as one that is above it only if both are
    written as the same. -/
theorem fixedValue_eq_of_lt (h : x.toRat ≤ v.toRat) (hlt : v.toRat < x.fixedValue realPlaces) :
    x.fixedValue realPlaces = v.fixedValue realPlaces := by
  refine le_antisymm (Binary64.fixedValue_mono _ h) (not_lt.1 fun hlt' => ?_)
  have hstep := Binary64.fixedValue_add_le hlt'
  have hnear := (abs_le.1 (Binary64.fixedValue_near realPlaces v)).2
  have : (1 : ℚ) / (2 * 10 ^ realPlaces) < 1 / 10 ^ realPlaces := by norm_num [realPlaces]
  linarith

theorem fixedValue_eq_of_gt (h : v.toRat ≤ x.toRat) (hlt : x.fixedValue realPlaces < v.toRat) :
    x.fixedValue realPlaces = v.fixedValue realPlaces := by
  refine le_antisymm (not_lt.1 fun hlt' => ?_) (Binary64.fixedValue_mono _ h)
  have hstep := Binary64.fixedValue_add_le hlt'
  have hnear := (abs_le.1 (Binary64.fixedValue_near realPlaces v)).1
  have : (1 : ℚ) / (2 * 10 ^ realPlaces) < 1 / 10 ^ realPlaces := by norm_num [realPlaces]
  linarith

/-- An end that is away from the estimate by more than the two roundings stays on its side. -/
theorem fixedValue_le_of_margin (hv : 0 ≤ v.toRat) {e : ℚ}
    (h : x.toRat ≤ 0 ∨ x.toRat ≤ v.toRat - (halfPlace + e) + e) : x.fixedValue realPlaces ≤ v.toRat := by
  rcases h with h | h
  · have := Binary64.fixedValue_mono realPlaces (h.trans Binary64.toRat_zero.ge)
    rw [Binary64.fixedValue_zero] at this
    linarith
  · have := (abs_le.1 (Binary64.fixedValue_near realPlaces x)).2
    unfold halfPlace at h
    linarith

theorem le_fixedValue_of_margin (hv : v.toRat ≤ 1) {e : ℚ}
    (h : 1 ≤ x.toRat ∨ v.toRat + (halfPlace + e) - e ≤ x.toRat) : v.toRat ≤ x.fixedValue realPlaces := by
  rcases h with h | h
  · have := Binary64.fixedValue_mono realPlaces (Binary64.toRat_one.le.trans h)
    rw [Binary64.fixedValue_one] at this
    linarith
  · have := (abs_le.1 (Binary64.fixedValue_near realPlaces x)).1
    unfold halfPlace at h
    linarith

end

/-! ## Both ends -/

/-- The interval of a text lies around what the estimate would be written as, so it misses the
    estimate by at most half a unit of the last place. An end that misses it is written as the
    estimate would be. With a margin of half a unit of the last place and 2^-54 both ends are
    on their sides. -/
theorem source_encloses (raw : Bundle) (margin : Binary64) (c : Certificate) (p : Protocol) (text : String)
    (t : Tree) (v : Binary64) (hc : Certificate.normalize raw margin = .ok c) (hs : source p c = .ok text)
    (ht : raw.get? "delta_ph" = some t) (hv : t.real? = some v) :
    ∃ l u, constant? text "delta_ph_lower" = some l ∧ constant? text "delta_ph_upper" = some u ∧
      l ≤ v.fixedValue realPlaces ∧ v.fixedValue realPlaces ≤ u ∧
      l ≤ v.toRat + halfPlace ∧ v.toRat ≤ u + halfPlace ∧
      (v.toRat < l → l = v.fixedValue realPlaces) ∧ (u < v.toRat → u = v.fixedValue realPlaces) ∧
      (margin.Reaches (halfPlace + 1 / 2 ^ 54) → l ≤ v.toRat ∧ v.toRat ≤ u) := by
  obtain ⟨v', hv', hf, h0, h1, hm, hi⟩ := Certificate.interval_of_estimate hc ht
  rw [hv, Option.some.injEq] at hv'
  subst hv'
  have hp := Certificate.interval_proper hc
  obtain ⟨hl, hu, -⟩ := source_constants hs
  rw [hi] at hp hl hu
  have hself := Interval.around_contains_self hf hm h0 h1
  unfold Interval.contains at hself
  rw [Bool.and_eq_true, Binary64.le_iff hp.lowerFinite hf, Binary64.le_iff hf hp.upperFinite] at hself
  obtain ⟨hlo, hup⟩ := hself
  have hlr := Binary64.fixedValue_mono realPlaces hlo
  have hur := Binary64.fixedValue_mono realPlaces hup
  have hnear := abs_le.1 (Binary64.fixedValue_near realPlaces v)
  rw [Binary64.le_iff Binary64.zero_isFinite hf, Binary64.toRat_zero] at h0
  rw [Binary64.le_iff hf Binary64.one_isFinite, Binary64.toRat_one] at h1
  refine ⟨_, _, hl, hu, hlr, hur, ?_, ?_, fixedValue_eq_of_lt hlo, fixedValue_eq_of_gt hup, ?_⟩
  · unfold halfPlace
    linarith [hnear.2]
  · unfold halfPlace
    linarith [hnear.1]
  · intro hr
    obtain ⟨hml, hmu⟩ := Interval.around_margin hf h0 h1 hm hr
    exact ⟨fixedValue_le_of_margin h0 hml, le_fixedValue_of_margin h1 hmu⟩

/-- The estimate for a run without errors is 0.03, as a double a little less; without a margin
    the text has the lower end 0.0300000000. -/
theorem source_misses_estimate : ∃ c text t v l,
    Certificate.normalize (Placeholder.estimate blankProtocol).toBundle .zero = .ok c ∧
      source blankProtocol c = .ok text ∧
      (Placeholder.estimate blankProtocol).toBundle.get? "delta_ph" = some t ∧ t.real? = some v ∧
      constant? text "delta_ph_lower" = some l ∧ v.toRat < l := by
  have he : (Placeholder.estimate blankProtocol).bound = Placeholder.offset := by decide +kernel
  have hf : Placeholder.offset.isFinite = true := by decide +kernel
  obtain ⟨c, hc, hi⟩ := Certificate.normalizeEstimate_isOk (e := Placeholder.estimate blankProtocol) (m := .zero)
    (by decide +kernel) (by decide +kernel) (by decide +kernel) (by decide +kernel)
  obtain ⟨text, hs⟩ := source_blankProtocol (Certificate.interval_proper hc)
  have hl : c.interval.lower = Placeholder.offset := by
    rw [hi]
    decide +kernel
  have ht := Certificate.get?_toBundle_bound (Placeholder.estimate blankProtocol)
  rw [he] at ht
  refine ⟨c, text, _, _, _, hc, hs, ht, Certificate.real?_ofReal hf, (source_constants hs).1, ?_⟩
  have hcount : Placeholder.offset.fixedCount realPlaces = 300000000 := by decide +kernel
  have hunits : Placeholder.offset.units * 100 < 3 * 2 ^ 1074 := by decide +kernel
  have hu : (Placeholder.offset.units * 100 : ℚ) < 3 * 2 ^ 1074 := by exact_mod_cast hunits
  rw [hl, Binary64.fixedValue, hcount, Binary64.toRat, div_lt_div_iff₀ (by positivity) (by positivity)]
  norm_num [realPlaces]
  linarith

theorem source_encloses_offset : ∃ c text l u,
    Certificate.normalize (Placeholder.estimate blankProtocol).toBundle Certificate.defaultMargin = .ok c ∧
      source blankProtocol c = .ok text ∧ constant? text "delta_ph_lower" = some l ∧
      constant? text "delta_ph_upper" = some u ∧ l ≤ Placeholder.offset.toRat + halfPlace ∧
      Placeholder.offset.toRat ≤ u + halfPlace := by
  have he : (Placeholder.estimate blankProtocol).bound = Placeholder.offset := by decide +kernel
  have hf : Placeholder.offset.isFinite = true := by decide +kernel
  obtain ⟨c, hc, -⟩ := Certificate.normalizeEstimate_isOk (e := Placeholder.estimate blankProtocol)
    (m := Certificate.defaultMargin) (by decide +kernel) (by decide +kernel) (by decide +kernel) (by decide +kernel)
  obtain ⟨text, hs⟩ := source_blankProtocol (Certificate.interval_proper hc)
  have ht := Certificate.get?_toBundle_bound (Placeholder.estimate blankProtocol)
  rw [he] at ht
  obtain ⟨l, u, hl, hu, -, -, hlv, hvu, -⟩ :=
    source_encloses _ _ c blankProtocol text _ _ hc hs ht (Certificate.real?_ofReal hf)
  exact ⟨c, text, l, u, hc, hs, hl, hu, hlv, hvu⟩

end PhaseCert.Instance
