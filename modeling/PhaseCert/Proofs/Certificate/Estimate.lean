/-
  PhaseCert.Proofs.Certificate.Estimate — an estimate through its bundle.

  An estimate becomes a certificate by way of an untyped bundle, which is the tree that it is
  written as (`toBundle_eq`): the bound and a record of four texts. A bound that is not finite is
  null there. So of an estimate two things can be wrong besides the margin, and which of them is
  told by the bound alone (`Declined`): not finite, it is no number in the bundle; finite, it may
  be outside of the unit interval. A bound within it comes back bit for bit, a negative zero too,
  and the texts come back as they were, whatever they are (`Returns`). All of this is
  `normalizeEstimate_returns`.
-/
import PhaseCert.Proofs.Certificate.Bundle

namespace PhaseCert

/-! ## The provenance record -/

namespace Provenance

theorem keysDiffer_fields (p : Provenance) : KeysDiffer p.fields := by
  simp [fields, KeysDiffer]

theorem ofTree?_toTree (p : Provenance) : ofTree? p.toTree = some p := by
  simp only [toTree, ofTree?, KeyMap.get?_entries_ofList p.keysDiffer_fields]
  rfl

theorem sorted_fields (p : Provenance) : (Tree.map p.fields).sorted = p.toTree := by
  rw [Tree.sorted_map]
  rfl

end Provenance

/-! ## The bundle -/

namespace Estimate

theorem toBundle_eq (e : Estimate) : Tree.map e.toBundle.entries = e.toTree := rfl

theorem sorted_written (e : Estimate) : e.written.sorted = e.toTree := by
  rw [written, Tree.sorted_map]
  simp only [List.map_cons, List.map_nil, Provenance.sorted_fields, Tree.sorted_of_canonical _ (Tree.canonical_ofReal e.bound)]
  rfl

end Estimate

/-! ## What becomes of it -/

namespace Certificate

/-- Why an estimate is declined. -/
inductive Declined (e : Estimate) (margin : Binary64) : CertificateError → Prop
  | margin : BadMargin margin → Declined e margin (.invalidMargin margin)
  | kind : ¬BadMargin margin → e.bound.isFinite = false → Declined e margin (.notNumber .null)
  | range : ¬BadMargin margin → e.bound.isFinite = true → ¬e.bound.InUnit → Declined e margin (.outOfRange e.bound)

/-- The estimate is what the certificate holds, and nothing came along. -/
structure Returns (e : Estimate) (c : Certificate) : Prop where
  estimate : c.estimate = some e.bound
  provenance : c.provenance.bind Provenance.ofTree? = some e.provenance
  info : c.info.extra = .empty
  extra : c.extra = .empty

section

variable {e : Estimate} {margin : Binary64}

theorem Declined.normalizeEstimate_eq {err : CertificateError} (h : Declined e margin err) :
    normalizeEstimate e margin = .error err := by
  have hget := get?_toBundle_bound e
  cases h with
  | margin hm => exact (Refused.margin hm).normalize_eq
  | kind hm hf =>
    rw [Tree.ofReal_of_not_finite hf] at hget
    refine (Refused.kind hm hget ?_).normalize_eq
    rw [Tree.isNumber_iff]
    rintro ⟨x, h⟩
    cases h
  | range hm hf hu => exact (Refused.range hm hget (real?_ofReal hf) hu).normalize_eq

theorem declined_or_inUnit (e : Estimate) (margin : Binary64) :
    (∃ err, Declined e margin err) ∨ (¬BadMargin margin ∧ e.bound.InUnit) := by
  by_cases hm : BadMargin margin
  · exact Or.inl ⟨_, .margin hm⟩
  cases hf : e.bound.isFinite with
  | false => exact Or.inl ⟨_, .kind hm hf⟩
  | true =>
    by_cases hu : e.bound.InUnit
    · exact Or.inr ⟨hm, hu⟩
    · exact Or.inl ⟨_, .range hm hf hu⟩

theorem normalizeEstimate_of_inUnit (hm : ¬BadMargin margin) (hu : e.bound.InUnit) :
    ∃ c, normalizeEstimate e margin = .ok c := by
  obtain ⟨h0, h1⟩ := Bool.and_eq_true_iff.1 (Binary64.inUnit_iff.1 hu)
  rw [← validMargin_eq_false, Bool.not_eq_false] at hm
  obtain ⟨c, hc, -⟩ := normalizeEstimate_isOk hu.1 h0 h1 hm
  exact ⟨c, hc⟩

/-- A certified estimate is none to be declined. -/
theorem inUnit_of_normalizeEstimate {c : Certificate} (h : normalizeEstimate e margin = .ok c) :
    ¬BadMargin margin ∧ e.bound.InUnit := by
  refine (declined_or_inUnit e margin).resolve_left ?_
  rintro ⟨err, herr⟩
  rw [herr.normalizeEstimate_eq] at h
  cases h

theorem get?_toBundle_provenance (e : Estimate) : e.toBundle.get? "certificate" = some e.provenance.toTree :=
  KeyMap.get?_insert_self _ _ _

theorem get?_toBundle_other (e : Estimate) {key : String} (hk : key ∉ fieldNames) : e.toBundle.get? key = none := by
  obtain ⟨h1, h2, -⟩ := not_mem_fieldNames.1 hk
  rw [Estimate.toBundle, KeyMap.get?_insert_of_ne h2.symm, KeyMap.get?_insert_of_ne h1.symm, KeyMap.get?_empty]

theorem returns_of_normalizeEstimate {c : Certificate} (h : normalizeEstimate e margin = .ok c) : Returns e c := by
  obtain ⟨-, hu⟩ := inUnit_of_normalizeEstimate h
  obtain ⟨-, he, hi, -, -, hp, -⟩ := normalize_ok h
  refine ⟨?_, ?_, ?_, ?_⟩
  · rw [estimateOf_inside (get?_toBundle_bound e) (real?_ofReal hu.1) hu, Except.ok.injEq] at he
    exact he.symm
  · rw [hp, get?_toBundle_provenance]
    exact Provenance.ofTree?_toTree e.provenance
  · rw [infoOf_none (get?_toBundle_meta e), Except.ok.injEq] at hi
    exact hi.symm
  · apply KeyMap.ext_get?
    intro key
    rw [KeyMap.get?_empty]
    by_cases hk : key ∈ fieldNames
    · exact get?_extra_field h hk
    · obtain ⟨h1, h2, h3, h4⟩ := not_mem_fieldNames.1 hk
      rw [get?_extra h h1 h2 h3 h4, get?_toBundle_other e hk]

end

/-- The bundle of an estimate is the tree that it is written as, where a bound that is not finite
    is null. The estimate is certified exactly if the margin is one and the bound is within the
    unit interval, and then all of it comes back; and it is declined for the margin, for a bound
    that is no number in the bundle or for one that is out of range, and for nothing else. -/
theorem normalizeEstimate_returns (e : Estimate) (margin : Binary64) :
    (Tree.map e.toBundle.entries = e.toTree ∧ e.written.sorted = e.toTree) ∧
    (e.bound.isFinite = false → e.toTree.get? "delta_ph" = some .null) ∧
    ((∃ c, normalizeEstimate e margin = .ok c) ↔ ¬BadMargin margin ∧ e.bound.InUnit) ∧
    (∀ c, normalizeEstimate e margin = .ok c → Returns e c) ∧
    ∀ err, normalizeEstimate e margin = .error err ↔ Declined e margin err := by
  refine ⟨⟨e.toBundle_eq, e.sorted_written⟩, fun hf => ?_, ⟨?_, ?_⟩, fun c => returns_of_normalizeEstimate,
    fun err => ⟨fun h => ?_, Declined.normalizeEstimate_eq⟩⟩
  · rw [← Tree.ofReal_of_not_finite hf]
    exact get?_toBundle_bound e
  · rintro ⟨c, hc⟩
    exact inUnit_of_normalizeEstimate hc
  · rintro ⟨hm, hu⟩
    exact normalizeEstimate_of_inUnit hm hu
  · rcases declined_or_inUnit e margin with ⟨err', herr⟩ | ⟨hm, hu⟩
    · rw [herr.normalizeEstimate_eq, Except.error.injEq] at h
      exact h ▸ herr
    · obtain ⟨c, hc⟩ := normalizeEstimate_of_inUnit hm hu
      rw [hc] at h
      cases h

/-- A negative zero comes back with no bound on the error, and not a number is no number. -/
theorem normalizeEstimate_returns_edge :
    (∃ c, normalizeEstimate ⟨Binary64.zero.neg, .placeholder⟩ (.infinite false) = .ok c ∧
      c.estimate = some Binary64.zero.neg ∧ c.provenance.bind Provenance.ofTree? = some .placeholder) ∧
    Binary64.nan.isFinite = false ∧ (Estimate.mk .nan .placeholder).toTree.get? "delta_ph" = some .null ∧
    normalizeEstimate ⟨.nan, .placeholder⟩ (.infinite false) = .error (.notNumber .null) := by
  have hm : ¬BadMargin (.infinite false) := by
    rw [← validMargin_eq_false]
    decide
  have hu : Binary64.zero.neg.InUnit := by
    rw [Binary64.inUnit_iff]
    decide +kernel
  obtain ⟨-, -, hok, hreturns, -⟩ := normalizeEstimate_returns ⟨Binary64.zero.neg, .placeholder⟩ (.infinite false)
  obtain ⟨c, hc⟩ := hok.2 ⟨hm, hu⟩
  have hr := hreturns c hc
  obtain ⟨-, hnull, -, -, hdeclined⟩ := normalizeEstimate_returns ⟨.nan, .placeholder⟩ (.infinite false)
  exact ⟨⟨c, hc, hr.estimate, hr.provenance⟩, rfl, hnull rfl, (hdeclined _).2 (.kind hm rfl)⟩

end Certificate

end PhaseCert
