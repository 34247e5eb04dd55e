/-
  PhaseCert.Proofs.Instance.Monotone — worse observations and wider margins.

  From the observed error rate to the digits of a text there are four steps that round or cut:
  the placeholder's sum, its cuts, the ends of the interval with their cuts, and the ten places
  of the text. Each keeps order, at the cuts, at the infinities and at ties too. So a larger
  error rate and a wider margin never make the upper end of a text smaller, and a larger error
  rate and a narrower margin never make the lower end smaller (`source_mono`).
-/
import PhaseCert.Proofs.Certificate.Placeholder
import PhaseCert.Proofs.Instance.Soundness

namespace PhaseCert

namespace Interval

open Binary64

variable {v w m n : Binary64}

/-! ## The ends of an interval -/

/-- The upper end moves up with the estimate and with the margin. -/
theorem upper_around_mono (hv : v.isFinite = true) (hw : w.isFinite = true) (h : v.le w = true)
    (hm : m.le n = true) : (around v m).upper.le (around w n).upper = true := by
  apply atMost_mono one_isFinite
  exact Binary64.add_le_add hv hw h hm

/-- The lower end moves up with the estimate and down with the margin. -/
theorem lower_around_mono (hv : v.isFinite = true) (hw : w.isFinite = true) (h : v.le w = true)
    (hm : m.le n = true) : (around v n).lower.le (around w m).lower = true := by
  apply atLeast_mono zero_isFinite
  exact Binary64.add_le_add hv hw h (Binary64.neg_le_neg hm)

end Interval

namespace Instance

/-! ## The ends in a text -/

/-- What is written keeps the order of doubles. -/
theorem fixedValue_le_of_le {x y : Binary64} (hx : x.isFinite = true) (hy : y.isFinite = true)
    (h : x.le y = true) : x.fixedValue realPlaces ≤ y.fixedValue realPlaces := by
  apply Binary64.fixedValue_mono
  exact (Binary64.le_iff hx hy).1 h

/-- With a larger error rate and a wider margin the upper end of a text is no smaller. With a
    larger error rate and a narrower margin its lower end is no smaller. Nothing else about the
    two protocols matters, but that they have a text. -/
theorem source_mono (p q : Protocol) (m n : Binary64)
    (hrate : p.observed.conclusiveErrorRate.le q.observed.conclusiveErrorRate = true)
    (hm : Binary64.zero.le m = true) (hmn : m.le n = true) :
    (∃ c d, Certificate.normalizeEstimate (Placeholder.estimate p) m = .ok c ∧
      Certificate.normalizeEstimate (Placeholder.estimate q) n = .ok d ∧
      ∀ s t, source p c = .ok s → source q d = .ok t → ∃ u u', constant? s "delta_ph_upper" = some u ∧
        constant? t "delta_ph_upper" = some u' ∧ u ≤ u') ∧
    (∃ c d, Certificate.normalizeEstimate (Placeholder.estimate p) n = .ok c ∧
      Certificate.normalizeEstimate (Placeholder.estimate q) m = .ok d ∧
      ∀ s t, source p c = .ok s → source q d = .ok t → ∃ l l', constant? s "delta_ph_lower" = some l ∧
        constant? t "delta_ph_lower" = some l' ∧ l ≤ l') := by
  have hn := Binary64.le_trans hm hmn
  have hbound := Placeholder.bound_mono hrate
  have hp := Placeholder.bound_isFinite p.observed.conclusiveErrorRate
  have hq := Placeholder.bound_isFinite q.observed.conclusiveErrorRate
  constructor
  · obtain ⟨c, hc⟩ := Placeholder.normalizeEstimate_isOk p hm
    obtain ⟨d, hd⟩ := Placeholder.normalizeEstimate_isOk q hn
    refine ⟨c, d, hc, hd, ?_⟩
    intro s t hs ht
    refine ⟨_, _, (source_constants hs).2.1, (source_constants ht).2.1, ?_⟩
    apply fixedValue_le_of_le (Certificate.interval_proper hc).upperFinite (Certificate.interval_proper hd).upperFinite
    rw [Placeholder.interval_of_normalizeEstimate hc, Placeholder.interval_of_normalizeEstimate hd]
    exact Interval.upper_around_mono hp hq hbound hmn
  · obtain ⟨c, hc⟩ := Placeholder.normalizeEstimate_isOk p hn
    obtain ⟨d, hd⟩ := Placeholder.normalizeEstimate_isOk q hm
    refine ⟨c, d, hc, hd, ?_⟩
    intro s t hs ht
    refine ⟨_, _, (source_constants hs).1, (source_constants ht).1, ?_⟩
    apply fixedValue_le_of_le (Certificate.interval_proper hc).lowerFinite (Certificate.interval_proper hd).lowerFinite
    rw [Placeholder.interval_of_normalizeEstimate hc, Placeholder.interval_of_normalizeEstimate hd]
    exact Interval.lower_around_mono hp hq hbound hmn

/-- The blank protocol, with this error rate observed. -/
def observing (rate : Binary64) : Protocol := { blankProtocol with observed := ⟨.zero, rate, .zero⟩ }

theorem source_observing (rate : Binary64) {c : Certificate} (hi : c.interval.Proper) :
    ∃ text, source (observing rate) c = .ok text :=
  source_isOk (n := defaultN) (x := .half) (y := .half) rfl rfl rfl Binary64.zero_isFinite hi

/-- From the smallest rate to the largest, and from a margin of negative zero to an infinite one. -/
theorem source_mono_infinite :
    ∃ c d s t u u', Certificate.normalizeEstimate (Placeholder.estimate (observing (.infinite true))) Binary64.zero.neg
        = .ok c ∧
      Certificate.normalizeEstimate (Placeholder.estimate (observing (.infinite false))) (.infinite false) = .ok d ∧
      source (observing (.infinite true)) c = .ok s ∧ source (observing (.infinite false)) d = .ok t ∧
      constant? s "delta_ph_upper" = some u ∧ constant? t "delta_ph_upper" = some u' ∧ u ≤ u' := by
  have hneg : Binary64.zero.le Binary64.zero.neg = true := by
    rw [Binary64.le_eq_true, Binary64.place?_neg, Binary64.place?_zero]
    exact ⟨0, 0, rfl, rfl, Int.le_refl 0⟩
  obtain ⟨⟨c, d, hc, hd, hle⟩, -⟩ := source_mono (observing (.infinite true)) (observing (.infinite false))
    Binary64.zero.neg (.infinite false) (Binary64.le_infinity rfl) hneg
    (Binary64.le_infinity (Binary64.not_nan_of_le hneg).2)
  obtain ⟨s, hs⟩ := source_observing (.infinite true) (Certificate.interval_proper hc)
  obtain ⟨t, ht⟩ := source_observing (.infinite false) (Certificate.interval_proper hd)
  obtain ⟨u, u', hu, hu', h⟩ := hle s t hs ht
  exact ⟨c, d, s, t, u, u', hc, hd, hs, ht, hu, hu', h⟩

end Instance

end PhaseCert
