/-
  PhaseCert.Proofs.Instance.Soundness — the statements of an instance are true.

  The ends of a certificate's interval are in order within the unit interval, and writing them
  with a set number of places keeps the order and keeps 0 and 1. So the constants of the text
  are in order within the unit interval too, which is what both of its statements say
  (`source_sound`).
-/
import PhaseCert.Generation
import PhaseCert.Proofs.Certificate.Enclosure
import PhaseCert.Proofs.Instance.Statement

namespace PhaseCert.Instance

/-! ## The text of a protocol and a certificate -/

theorem render_eq_ok {v : InstanceValues} {text : String} (h : render v = .ok text) :
    text = joinLines (lines v) ∧ ∀ r ∈ reals v, r.2.isFinite = true := by
  unfold render at h
  split at h
  · cases h
  · rename_i hn
    rw [Except.ok.injEq] at h
    refine ⟨h.symm, ?_⟩
    unfold notFinite? at hn
    rw [Option.map_eq_none_iff, List.find?_eq_none] at hn
    intro r hm
    simpa using hn r hm

/-- A text is that of values that are all finite; the interval's ends are among them as they
    stand in the certificate. -/
theorem source_ok {p : Protocol} {c : Certificate} {text : String} (h : source p c = .ok text) :
    ∃ v, text = joinLines (lines v) ∧ (∀ r ∈ reals v, r.2.isFinite = true) ∧ v.lower = c.interval.lower ∧
      v.upper = c.interval.upper ∧ v.epsilon = p.securityGoal.epsilon := by
  unfold source at h
  obtain ⟨v, hv, hr⟩ := Outcome.bind_eq_ok.1 h
  rw [Outcome.mapError_eq_ok] at hv hr
  unfold values at hv
  obtain ⟨n, -, hv⟩ := Outcome.bind_eq_ok.1 hv
  obtain ⟨prior0, -, hv⟩ := Outcome.bind_eq_ok.1 hv
  obtain ⟨prior1, -, hv⟩ := Outcome.bind_eq_ok.1 hv
  simp only [pure, Except.pure, Except.ok.injEq] at hv
  subst hv
  obtain ⟨htext, hf⟩ := render_eq_ok hr
  exact ⟨_, htext, hf, rfl, rfl, rfl⟩

/-- The constants of a text are the ends of the certificate's interval with ten places. -/
theorem source_constants {p : Protocol} {c : Certificate} {text : String} (h : source p c = .ok text) :
    constant? text "delta_ph_lower" = some (c.interval.lower.fixedValue realPlaces) ∧
      constant? text "delta_ph_upper" = some (c.interval.upper.fixedValue realPlaces) ∧
      constant? text "epsilon" = some (p.securityGoal.epsilon.fixedValue realPlaces) := by
  obtain ⟨v, rfl, hf, hl, hu, he⟩ := source_ok h
  rw [← hl, ← hu, ← he]
  refine ⟨constant?_lines hf ?_, constant?_lines hf ?_, constant?_lines hf ?_⟩ <;> simp [reals]

theorem isFinite_of_realOr {ps : Parameters} {key : String} {default x : Binary64} (hd : default.isFinite = true)
    (h : ps.realOr key default = .ok x) : x.isFinite = true := by
  unfold Parameters.realOr at h
  split at h
  · simp only [Except.ok.injEq] at h
    rw [← h]
    exact hd
  · split at h
    · cases h
    · split at h
      · rename_i hx
        simp only [Except.ok.injEq] at h
        rw [← h]
        exact hx
      · cases h

theorem render_of_isFinite {v : InstanceValues} (hf : ∀ r ∈ reals v, r.2.isFinite = true) :
    render v = .ok (joinLines (lines v)) := by
  have hn : notFinite? v = none := by
    rw [notFinite?, Option.map_eq_none_iff, List.find?_eq_none]
    intro r hr
    simpa using hf r hr
  unfold render
  rw [hn]

/-- A protocol whose parameters can be read has a text with every certificate whose interval is
    proper. -/
theorem source_isOk {p : Protocol} {c : Certificate} {n : Nat} {x y : Binary64}
    (hn : p.parameters.countOr "N" defaultN = .ok n) (hx : p.parameters.realOr "p_psi0" .half = .ok x)
    (hy : p.parameters.realOr "p_psi1" .half = .ok y) (he : p.securityGoal.epsilon.isFinite = true)
    (hi : c.interval.Proper) : ∃ text, source p c = .ok text := by
  have hhalf := Binary64.half_isFinite
  obtain ⟨v, hv⟩ : ∃ v : InstanceValues, v = ⟨n, x, y, c.interval.lower, c.interval.upper, p.securityGoal.epsilon⟩ :=
    ⟨_, rfl⟩
  have hvalues : values p c = .ok v := by
    simp only [values, hn, hx, hy, hv]
    rfl
  have hf : ∀ r ∈ reals v, r.2.isFinite = true := by
    simp only [hv, reals, List.forall_mem_cons]
    exact ⟨isFinite_of_realOr hhalf hx, isFinite_of_realOr hhalf hy, hi.lowerFinite, hi.upperFinite, he,
      List.forall_mem_nil _⟩
  refine ⟨joinLines (lines v), Outcome.bind_eq_ok.2 ⟨v, ?_, ?_⟩⟩
  · rw [hvalues]
    rfl
  · rw [render_of_isFinite hf]
    rfl

/-! ## Soundness -/

/-- The constants that a text defines for the interval are in order within the unit interval,
    and both statements of the text are true. -/
theorem source_sound (raw : Bundle) (margin : Binary64) (c : Certificate) (p : Protocol) (text : String)
    (hc : Certificate.normalize raw margin = .ok c) (hs : source p c = .ok text) :
    ∃ l u, constant? text "delta_ph_lower" = some l ∧ constant? text "delta_ph_upper" = some u ∧
      0 ≤ l ∧ l ≤ u ∧ u ≤ 1 ∧ StatementHolds text intervalHead ∧ StatementHolds text securityHead := by
  have hi := Certificate.interval_proper hc
  obtain ⟨hl, hu, he⟩ := source_constants hs
  have h0 : 0 ≤ c.interval.lower.fixedValue realPlaces := by
    rw [← Binary64.fixedValue_zero realPlaces]
    exact Binary64.fixedValue_mono _ (by rw [Binary64.toRat_zero]; exact hi.nonneg)
  have hlu : c.interval.lower.fixedValue realPlaces ≤ c.interval.upper.fixedValue realPlaces :=
    Binary64.fixedValue_mono _ hi.ordered
  have h1 : c.interval.upper.fixedValue realPlaces ≤ 1 := by
    rw [← Binary64.fixedValue_one realPlaces]
    exact Binary64.fixedValue_mono _ (by rw [Binary64.toRat_one]; exact hi.le_one)
  obtain ⟨v, rfl, hf, -⟩ := source_ok hs
  exact ⟨_, _, hl, hu, h0, hlu, h1, statementHolds_interval hf hl hu h0 hlu h1,
    statementHolds_security hf hl hu he h0 h1⟩

/-- A protocol of which nothing is known: no parameters, and every number 0. -/
def blankProtocol : Protocol where
  name := ""
  description := ""
  parameters := .empty
  states := []
  measurement := ⟨false, []⟩
  device := ⟨.zero, .zero, .zero⟩
  postprocessing := ⟨"", ⟨"", .zero, .zero⟩, ⟨"", "", .zero⟩⟩
  observed := ⟨.zero, .zero, .zero⟩
  securityGoal := ⟨"", .zero, ""⟩
  authorship := ⟨"", "", "", ""⟩

theorem source_blankProtocol {c : Certificate} (hi : c.interval.Proper) : ∃ text, source blankProtocol c = .ok text :=
  source_isOk (n := defaultN) (x := .half) (y := .half) rfl rfl rfl Binary64.zero_isFinite hi

theorem normalize_empty : ∃ c, Certificate.normalize .empty Certificate.defaultMargin = .ok c := by
  have hm := Certificate.validMargin_of_le Certificate.zero_le_defaultMargin
  simp only [Certificate.normalize, hm, Bool.not_true, Bool.false_eq_true, if_false]
  exact ⟨_, rfl⟩

theorem source_sound_blank : ∃ c text, Certificate.normalize .empty Certificate.defaultMargin = .ok c ∧
    source blankProtocol c = .ok text ∧ StatementHolds text intervalHead := by
  obtain ⟨c, hc⟩ := normalize_empty
  obtain ⟨text, hs⟩ := source_blankProtocol (Certificate.interval_proper hc)
  obtain ⟨l, u, -, -, -, -, -, hi, -⟩ := source_sound .empty Certificate.defaultMargin c blankProtocol text hc hs
  exact ⟨c, text, hc, hs, hi⟩

end PhaseCert.Instance
