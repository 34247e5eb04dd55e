/-
  PhaseCert.Proofs.Certificate.Normalization — what a bundle that normalises is, and what its
  certificate holds (`normalize_ok`), field by field, in terms of the bundle's entries.
-/
import PhaseCert.Certificate.Normalization
import PhaseCert.Proofs.KeyMap
import PhaseCert.Proofs.Outcome

namespace PhaseCert.Certificate

/-! ## The estimate in a bundle -/

theorem estimateOf_none {raw : Bundle} (h : raw.get? "delta_ph" = none) : estimateOf raw = .ok none := by
  simp only [estimateOf, h]

/-- A bundle's estimate is the number under its key, within the unit interval. -/
theorem estimateOf_ok {raw : Bundle} {estimate : Option Binary64} (h : estimateOf raw = .ok estimate) :
    (raw.get? "delta_ph" = none ∧ estimate = none) ∨
      ∃ t v, raw.get? "delta_ph" = some t ∧ t.real? = some v ∧ estimate = some v ∧
        Binary64.zero.le v = true ∧ v.le .one = true := by
  unfold estimateOf at h
  cases hg : raw.get? "delta_ph" with
  | none =>
    rw [hg] at h
    simp only [Except.ok.injEq] at h
    exact Or.inl ⟨rfl, h.symm⟩
  | some t =>
    rw [hg] at h
    simp only at h
    cases hr : t.real? with
    | none =>
      rw [hr] at h
      cases h
    | some v =>
      rw [hr] at h
      simp only at h
      split at h
      · rename_i hc
        rw [Bool.and_eq_true] at hc
        simp only [Except.ok.injEq] at h
        exact Or.inr ⟨t, v, rfl, hr, h.symm, hc.1, hc.2⟩
      · cases h

/-! ## The certificate of a bundle -/

/-- A bundle that normalises has a valid margin, an estimate and an inner record, and its
    certificate is made of these and of the bundle's other entries. -/
theorem normalize_ok {raw : Bundle} {margin : Binary64} {c : Certificate}
    (h : normalize raw margin = .ok c) :
    validMargin margin = true ∧ estimateOf raw = .ok c.estimate ∧ infoOf raw = .ok c.info.extra ∧
      c.info.normalized = true ∧
      c.interval = (match c.estimate with
        | some x => Interval.around x margin
        | none => Interval.unit) ∧
      c.provenance = raw.get? "certificate" ∧
      c.extra = (((raw.erase "delta_ph").erase "certificate").erase "delta_ph_interval").erase "meta" := by
  unfold normalize at h
  cases hm : validMargin margin with
  | false => simp [hm, throw, throwThe, MonadExceptOf.throw, bind, Except.bind] at h
  | true =>
    simp only [hm, Bool.not_true, Bool.false_eq_true, if_false] at h
    obtain ⟨-, -, h⟩ := Outcome.bind_eq_ok.1 h
    obtain ⟨estimate, he, h⟩ := Outcome.bind_eq_ok.1 h
    obtain ⟨info, hi, h⟩ := Outcome.bind_eq_ok.1 h
    simp only [pure, Except.pure, Except.ok.injEq] at h
    subst h
    exact ⟨rfl, he, hi, rfl, rfl, rfl, rfl⟩

theorem validMargin_iff {m : Binary64} :
    validMargin m = true ↔ m = .infinite false ∨ (m.isFinite = true ∧ m.lt .zero = false) := by
  cases m with
  | nan => simp [validMargin, Binary64.isNaN, Binary64.isFinite]
  | infinite s =>
    cases s
    · simp [validMargin, Binary64.isNaN]
      decide
    · simp [validMargin, Binary64.isNaN, Binary64.isFinite]
      decide
  | finite s r => simp [validMargin, Binary64.isNaN, Binary64.isFinite]

/-! ## The bundle of an estimate -/

theorem get?_toBundle_bound (e : Estimate) : e.toBundle.get? "delta_ph" = some (.ofReal e.bound) := by
  rw [Estimate.toBundle, KeyMap.get?_insert_of_ne (by decide), KeyMap.get?_insert_self]

theorem get?_toBundle_meta (e : Estimate) : e.toBundle.get? "meta" = none := by
  rw [Estimate.toBundle, KeyMap.get?_insert_of_ne (by decide), KeyMap.get?_insert_of_ne (by decide), KeyMap.get?_empty]

theorem real?_ofReal {x : Binary64} (hx : x.isFinite = true) : (Tree.ofReal x).real? = some x := by
  rw [Tree.ofReal, Binary64.finite?, dif_pos hx]
  rfl

/-- An estimate within the unit interval is certified with every valid margin. -/
theorem normalizeEstimate_isOk {e : Estimate} {m : Binary64} (hf : e.bound.isFinite = true)
    (h0 : Binary64.zero.le e.bound = true) (h1 : e.bound.le .one = true) (hm : validMargin m = true) :
    ∃ c, normalize e.toBundle m = .ok c ∧ c.interval = Interval.around e.bound m := by
  have he : estimateOf e.toBundle = .ok (some e.bound) := by
    simp only [estimateOf, get?_toBundle_bound, real?_ofReal hf, h0, h1, Bool.and_self, if_true]
  have hi : infoOf e.toBundle = .ok .empty := by
    simp only [infoOf, get?_toBundle_meta]
  simp only [normalize, hm, he, hi, Bool.not_true, Bool.false_eq_true, if_false]
  exact ⟨_, rfl, rfl⟩

end PhaseCert.Certificate
