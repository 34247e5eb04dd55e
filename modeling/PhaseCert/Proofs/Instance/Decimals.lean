/-
  PhaseCert.Proofs.Instance.Decimals — a decimal with few places reaches an instance unchanged.

  A real takes two roundings on its way into a text: from the decimal of a configuration to the
  closest double, and from there to ten places. Both the parameters and the schema read a text as
  the number that the tree holds (`HoldsReal`), so one lemma does for all the ways in
  (`literal_of_holdsReal`). Up to 524288, a decimal of at most ten places comes out of the second
  rounding as it went into the first, whatever zeros, signs and blanks it is written with
  (`source_decimal`).
-/
import PhaseCert.Proofs.Decimal.Places
import PhaseCert.Proofs.Instance.Literal
import PhaseCert.Proofs.Instance.Lookups
import PhaseCert.Proofs.Protocol.Numbers

namespace PhaseCert.Instance

open Numeral

/-! ## What a text holds -/

section

variable {s : String} {q : ℚ} (hs : PlacesText 10 s.toList q) (hq : |q| ≤ 524288)

include hs hq

theorem exists_holdsReal : ∃ x, (Tree.text s).HoldsReal x := by
  obtain ⟨-, negative, d, hd, -⟩ := hs.decimal
  exact ⟨_, .text hd (hs.fixedValue hq hd).1⟩

/-- The double that a text holds is written as the decimal of the text. -/
theorem fixedValue_of_holdsReal {x : Binary64} (hx : (Tree.text s).HoldsReal x) : x.fixedValue realPlaces = q := by
  cases hx with
  | text hd _ => exact (hs.fixedValue hq hd).2

theorem literal_of_holdsReal {x : Binary64} (hx : (Tree.text s).HoldsReal x) :
    literalValue? (realLiteral x) = some q := by
  rw [literalValue?_realLiteral hx.isFinite, fixedValue_of_holdsReal hs hq hx]

end

/-! ## Priors -/

/-- The constant of a prior is the double that is looked up under its name, with ten places. -/
theorem constant?_prior {p : Protocol} {c : Certificate} {text key : String} (h : source p c = .ok text)
    (hkey : key ∈ ["p_psi0", "p_psi1"]) {x : Binary64} (hx : p.parameters.realOr key .half = .ok x) :
    constant? text key = some (x.fixedValue realPlaces) := by
  obtain ⟨n, prior0, prior1, hl, hr⟩ := looked_of_source h
  obtain ⟨rfl, hf⟩ := render_eq_ok hr
  refine constant?_lines hf ?_
  simp only [List.mem_cons, List.not_mem_nil, or_false] at hkey
  rcases hkey with rfl | rfl
  · rw [hl.prior0, Except.ok.injEq] at hx
    simp [reals, hx]
  · rw [hl.prior1, Except.ok.injEq] at hx
    simp [reals, hx]

/-! ## Every decimal -/

/-- A text of at most ten places that stands for at most 524288 is read wherever it stands for a
    prior or for epsilon, and the literal of what is read stands for the same number. -/
theorem source_decimal (s : String) (q : ℚ) (hs : PlacesText 10 s.toList q) (hq : |q| ≤ 524288) :
    (∀ key ∈ ["p_psi0", "p_psi1"], ∀ p : Protocol, p.parameters.get? key = some (.text s) →
      ∃ x, (∀ default, p.parameters.realOr key default = .ok x) ∧ literalValue? (realLiteral x) = some q ∧
        ∀ c text, source p c = .ok text → constant? text key = some q) ∧
    (∀ document p, document.at? RealField.epsilon.place = some (.text s) → Protocol.ofDocument document = .ok p →
      literalValue? (realLiteral p.securityGoal.epsilon) = some q ∧
        ∀ c text, source p c = .ok text → constant? text "epsilon" = some q) ∧
    (∀ document, Protocol.ValidBut document RealField.epsilon.place →
      ∃ p, Protocol.ofDocument (document.put RealField.epsilon.place (.text s)) = .ok p) ∧
    ∀ document key, Protocol.ValidBut document (Parameters.place key) →
      ∃ p, Protocol.ofDocument (document.put (Parameters.place key) (.text s)) = .ok p ∧
        p.parameters.get? key = some (.text s) := by
  obtain ⟨x, hx⟩ := exists_holdsReal hs hq
  refine ⟨?_, ?_, ?_, ?_⟩
  · intro key hkey p hp
    have hread : ∀ default, p.parameters.realOr key default = .ok x := by
      intro default
      rw [Parameters.realOr_eq_ok hp]
      exact (ParamValue.real?_eq_some_iff (t := .text s) rfl).2 hx
    refine ⟨x, hread, literal_of_holdsReal hs hq hx, ?_⟩
    intro c text htext
    rw [constant?_prior htext hkey (hread .half), fixedValue_of_holdsReal hs hq hx]
  · intro document p hat hp
    obtain ⟨r, hr, hholds⟩ := (Protocol.ofDocument_ok_iff.1 hp).value?_at .epsilon hat
    simp only [RealField.value?, Option.some.injEq] at hr
    rw [← hr] at hholds
    refine ⟨literal_of_holdsReal hs hq hholds, ?_⟩
    intro c text htext
    rw [(source_constants htext).2.2, fixedValue_of_holdsReal hs hq hholds]
  · intro document hd
    exact hd.loads rfl (Protocol.takes_real hx.isReal .epsilon)
  · intro document key hd
    obtain ⟨p, hp⟩ := hd.loads rfl (Protocol.takes_parameter hx.isReal.isScalar key)
    obtain ⟨v, hv, hstored⟩ := (Protocol.ofDocument_ok_iff.1 hp).get?_put hd.stands
    cases hv
    exact ⟨p, hp, hstored⟩

/-- The last decimal of ten places before the end of the range, below zero and without a digit to
    spare, among blanks. -/
def edgeText : String := " -524287.9999999999\n"

/-- As a prior it is read, written and given back to its last digit. -/
theorem source_decimal_edge : ∃ c text, PlacesText 10 edgeText.toList (-(5242879999999999 / 10 ^ 10)) ∧
    source (blankWith "p_psi1" (.text edgeText)) c = .ok text ∧
      constant? text "p_psi1" = some (-(5242879999999999 / 10 ^ 10)) := by
  have htext : PlacesText 10 edgeText.toList (-(5242879999999999 / 10 ^ 10)) := by
    have hparts : PlacesText 10 ([' '] ++ (['-'] ++ ("524287".toList ++ (['.'] ++ "9999999999".toList)) ++ ['\n'])) _ :=
      .mk (by decide) .minus (List.all_eq_true.1 (by decide)) (List.all_eq_true.1 (by decide)) (.inl (by decide))
        (.inl rfl) (by decide) (by decide)
    have hvalue : ((if true then -1 else 1) * ((natOfDigits "524287".toList : ℚ)
        + natOfDigits "9999999999".toList / 10 ^ "9999999999".toList.length)) = -(5242879999999999 / 10 ^ 10) := by
      have hwhole : natOfDigits "524287".toList = 524287 := by decide
      have hpart : natOfDigits "9999999999".toList = 9999999999 := by decide
      have hlength : "9999999999".toList.length = 10 := by decide
      rw [hwhole, hpart, hlength]
      norm_num
    rw [hvalue] at hparts
    exact hparts
  have hq : |(-(5242879999999999 / 10 ^ 10) : ℚ)| ≤ 524288 := by
    rw [abs_neg, abs_of_nonneg (by norm_num)]
    norm_num
  obtain ⟨hprior, -⟩ := source_decimal edgeText _ htext hq
  obtain ⟨x, hread, -, hconstant⟩ := hprior "p_psi1" (by decide) (blankWith "p_psi1" (.text edgeText)) rfl
  obtain ⟨c, hc⟩ := Placeholder.normalizeEstimate_isOk (blankWith "p_psi1" (.text edgeText))
    Certificate.zero_le_defaultMargin
  obtain ⟨text, hsource⟩ := source_isOk (c := c) (n := defaultN) (x := .half) rfl rfl (hread .half)
    Binary64.zero_isFinite (Certificate.interval_proper hc)
  exact ⟨c, text, htext, hsource, hconstant c text hsource⟩

end PhaseCert.Instance
