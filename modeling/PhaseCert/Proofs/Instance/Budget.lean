/-
  PhaseCert.Proofs.Instance.Budget — when the security parameter survives being written.

  The second statement of a text is an implication whose hypothesis is that epsilon is positive.
  Epsilon is written with ten places like every other real, so the hypothesis is about the
  multiple of 10^-10 that is nearest to it. That is positive exactly if epsilon is more than
  half a unit of the last place. A smaller one is written as 0.0000000000, and then the
  implication is true because its hypothesis is false (`source_epsilon`, `source_loses_epsilon`).
-/
import PhaseCert.Proofs.Certificate.Placeholder
import PhaseCert.Proofs.Instance.Enclosure

namespace PhaseCert.Instance

/-! ## Hypotheses -/

/-- The text states an implication under this head, and its left side is true of the constants
    that the text defines. -/
def HypothesisHolds (source head : String) : Prop :=
  ∃ line f g p, lineAfter? head (sourceLines source) = some line ∧ formulaOf? line = some (.implies f g) ∧
    f.meaning? (constant? source) = some p ∧ p

/-- The hypothesis of the statement about security is that the constant is positive. -/
theorem hypothesisHolds_security {v : InstanceValues} {e : ℚ} (hf : ∀ r ∈ reals v, r.2.isFinite = true)
    (he : constant? (joinLines (lines v)) "epsilon" = some e) :
    HypothesisHolds (joinLines (lines v)) securityHead ↔ 0 < e := by
  have hline : lineAfter? securityHead (sourceLines (joinLines (lines v))) = some securityLine := by
    rw [sourceLines_joinLines (newline_not_mem_lines hf)]
    exact lineAfter?_security v
  have hmeaning : (Formula.compare true ['0'] "epsilon".toList).meaning? (constant? (joinLines (lines v)))
      = some (0 < e) := by
    have ee := number?_name (by decide) he
    simp only [Formula.meaning?, number?_numeral value?_zero, ee]
    rfl
  constructor
  · rintro ⟨line, f, g, p, hl, hformula, hp, htrue⟩
    rw [hline, Option.some.injEq] at hl
    rw [← hl, formulaOf?_security, securityFormula, Option.some.injEq, Formula.implies.injEq] at hformula
    rw [← hformula.1, hmeaning, Option.some.injEq] at hp
    rw [hp]
    exact htrue
  · intro hpos
    exact ⟨securityLine, _, _, 0 < e, hline, formulaOf?_security, hmeaning, hpos⟩

/-! ## Epsilon in a text -/

/-- A positive number that is written as no unit of the last place at all. -/
theorem numberText_of_count_zero {x : Binary64} (hpos : Binary64.zero.lt x = true) (hx : x.isFinite = true)
    (hcount : x.fixedCount realPlaces = 0) : numberText x = "0.0000000000" := by
  obtain ⟨a, b, ha, hb, hab⟩ := Binary64.lt_eq_true.1 hpos
  rw [Binary64.place?_zero, Option.some.injEq] at ha
  have hplace : x.place? ≠ some 0 := by
    rw [hb, Ne, Option.some.injEq]
    omega
  rw [numberText, if_neg hplace]
  cases x with
  | nan => cases hx
  | infinite s => cases hx
  | finite s r =>
    cases s with
    | true =>
      rw [Binary64.place?_finite, if_pos rfl, Option.some.injEq] at hb
      omega
    | false =>
      rw [fixedCount_finite, if_neg (by decide)] at hcount
      simp only [fixedText, Nat.pow_eq]
      rw [Int.natCast_eq_zero.1 hcount]
      decide

theorem literal?_epsilon {p : Protocol} {c : Certificate} {text : String} (h : source p c = .ok text) :
    p.securityGoal.epsilon.isFinite = true ∧
      literal? text "epsilon" = some ("(" ++ numberText p.securityGoal.epsilon ++ ")%R") := by
  obtain ⟨v, rfl, hf, -, -, he⟩ := source_ok h
  have hm : ("epsilon", v.epsilon) ∈ reals v := by simp [reals]
  rw [← he, ← realLiteral_eq]
  exact ⟨hf _ hm, literal?_lines hf hm⟩

/-- A positive epsilon is written as the multiple of 10^-10 that is nearest to it, an even one of
    two. It is written as something positive, and the hypothesis of the statement about security
    is true of the text's own constant, exactly if it is more than half a unit of the last
    place. Otherwise the text says 0.0000000000. -/
theorem source_epsilon (p : Protocol) (c : Certificate) (text : String) (hs : source p c = .ok text)
    (hpos : Binary64.zero.lt p.securityGoal.epsilon = true) :
    ∃ k : Int, ∃ e : ℚ, e = k / 10 ^ realPlaces ∧ constant? text "epsilon" = some e ∧ 0 ≤ e ∧
      |e - p.securityGoal.epsilon.toRat| ≤ halfPlace ∧
      (|e - p.securityGoal.epsilon.toRat| = halfPlace → Even k) ∧
      (0 < e ↔ halfPlace < p.securityGoal.epsilon.toRat) ∧
      (HypothesisHolds text securityHead ↔ halfPlace < p.securityGoal.epsilon.toRat) ∧
      (p.securityGoal.epsilon.toRat ≤ halfPlace → literal? text "epsilon" = some "(0.0000000000)%R") := by
  obtain ⟨hf, hliteral⟩ := literal?_epsilon hs
  obtain ⟨-, -, hconstant⟩ := source_constants hs
  obtain ⟨v, rfl, hv, -⟩ := source_ok hs
  have hnonneg : 0 ≤ p.securityGoal.epsilon.fixedValue realPlaces := by
    rw [← Binary64.fixedValue_zero realPlaces]
    exact Binary64.fixedValue_mono _ ((Binary64.le_iff Binary64.zero_isFinite hf).1 (Binary64.le_of_lt hpos))
  have hcount : 0 < p.securityGoal.epsilon.fixedValue realPlaces ↔ 0 < p.securityGoal.epsilon.fixedCount realPlaces := by
    rw [Binary64.fixedValue, div_pos_iff_of_pos_right (by positivity), Int.cast_pos]
  have hiff : 0 < p.securityGoal.epsilon.fixedValue realPlaces ↔ halfPlace < p.securityGoal.epsilon.toRat :=
    hcount.trans Binary64.fixedCount_pos_iff
  refine ⟨_, _, rfl, hconstant, hnonneg, Binary64.fixedValue_near _ _, Binary64.fixedCount_tie, hiff, ?_, ?_⟩
  · rw [← hiff]
    exact hypothesisHolds_security hv hconstant
  · intro hle
    have hnot := hiff.not.2 (not_lt.2 hle)
    have hzero : p.securityGoal.epsilon.fixedCount realPlaces = 0 := by
      have : p.securityGoal.epsilon.fixedValue realPlaces = 0 := le_antisymm (not_lt.1 hnot) hnonneg
      rw [Binary64.fixedValue, div_eq_zero_iff] at this
      simpa using this
    rw [hliteral, numberText_of_count_zero hpos hf hzero]
    rfl

/-- The blank protocol, with this security parameter. -/
def budgeted (epsilon : Binary64) : Protocol := { blankProtocol with securityGoal := ⟨"", epsilon, ""⟩ }

@[simp] theorem epsilon_budgeted (x : Binary64) : (budgeted x).securityGoal.epsilon = x := rfl

/-- It is written with the default margin if its security parameter is finite. -/
theorem source_budgeted {x : Binary64} (hx : x.isFinite = true) : ∃ c text,
    Certificate.normalizeEstimate (Placeholder.estimate (budgeted x)) Certificate.defaultMargin = .ok c ∧
      source (budgeted x) c = .ok text := by
  obtain ⟨c, hc⟩ := Placeholder.normalizeEstimate_isOk (budgeted x) Certificate.zero_le_defaultMargin
  obtain ⟨text, hs⟩ := source_isOk (p := budgeted x) (n := defaultN) (x := .half) (y := .half) rfl rfl rfl hx
    (Certificate.interval_proper hc)
  exact ⟨c, text, hc, hs⟩

theorem source_epsilon_one : ∃ c text, source (budgeted .one) c = .ok text ∧ HypothesisHolds text securityHead := by
  have hmore : halfPlace < (budgeted .one).securityGoal.epsilon.toRat := by
    rw [epsilon_budgeted, Binary64.toRat_one]
    norm_num [halfPlace, realPlaces]
  obtain ⟨c, text, -, hs⟩ := source_budgeted Binary64.one_isFinite
  obtain ⟨k, e, -, -, -, -, -, -, hholds, -⟩ := source_epsilon (budgeted .one) c text hs
    (by rw [epsilon_budgeted]; exact Binary64.zero_lt_one)
  exact ⟨c, text, hs, hholds.2 hmore⟩

/-- 10^-11 as a double. -/
def lostEpsilon : Binary64 := Decimal.toBinary64 false ⟨1, -11⟩

theorem lostEpsilon_spec : lostEpsilon.isFinite = true ∧ Binary64.zero.lt lostEpsilon = true ∧
    lostEpsilon.fixedCount realPlaces = 0 := by decide +kernel

/-- 10^-11 is positive, and written as 0: the hypothesis is false of the text's own constant. -/
theorem source_loses_epsilon : ∃ c text,
    Certificate.normalizeEstimate (Placeholder.estimate (budgeted lostEpsilon)) Certificate.defaultMargin = .ok c ∧
      source (budgeted lostEpsilon) c = .ok text ∧ lostEpsilon.isFinite = true ∧
      Binary64.zero.lt lostEpsilon = true ∧ constant? text "epsilon" = some 0 ∧
      ¬HypothesisHolds text securityHead := by
  obtain ⟨hf, hpos, hcount⟩ := lostEpsilon_spec
  obtain ⟨c, text, hc, hs⟩ := source_budgeted hf
  obtain ⟨-, -, hconstant⟩ := source_constants hs
  have hzero : constant? text "epsilon" = some 0 := by
    rw [hconstant, epsilon_budgeted, Binary64.fixedValue, hcount, Int.cast_zero, zero_div]
  refine ⟨c, text, hc, hs, hf, hpos, hzero, ?_⟩
  obtain ⟨v, rfl, hv, -⟩ := source_ok hs
  rw [hypothesisHolds_security hv hzero]
  exact lt_irrefl 0

end PhaseCert.Instance
