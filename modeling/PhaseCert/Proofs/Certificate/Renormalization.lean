/-
  PhaseCert.Proofs.Certificate.Renormalization — a certificate that is normalised again.

  What normalisation takes from a bundle it finds unchanged in the bundle of the certificate:
  the estimate (`estimateOf_toBundle`), the inner record without its mark (`infoOf_toBundle`)
  and the other keys. The interval, all that is left of the margin, is not looked at. So a
  certificate that is normalised again is that of the first bundle with the new margin
  (`normalize_toBundle`), and so is the last one of a chain (`renormalize_eq`).
-/
import PhaseCert.Proofs.Certificate.Bundle

namespace PhaseCert.Certificate

/-- Normalised again with one margin after the other. -/
def renormalize (c : Certificate) (margins : List Binary64) : Except CertificateError Certificate :=
  margins.foldlM (fun c margin => normalize c.toBundle margin) c

/-- Two bundles with one estimate, one inner record and the same other keys have one certificate. -/
theorem normalize_congr {raw raw' : Bundle} (he : estimateOf raw = estimateOf raw') (hi : infoOf raw = infoOf raw')
    (ho : ∀ {key}, key ≠ "delta_ph" → key ≠ "delta_ph_interval" → key ≠ "meta" → raw.get? key = raw'.get? key)
    (margin : Binary64) : normalize raw margin = normalize raw' margin := by
  have hopen : (((raw.erase "delta_ph").erase "certificate").erase "delta_ph_interval").erase "meta"
      = (((raw'.erase "delta_ph").erase "certificate").erase "delta_ph_interval").erase "meta" := by
    apply KeyMap.ext_get?
    intro key
    simp only [KeyMap.get?_erase]
    by_cases h1 : "meta" = key
    · rw [if_pos h1, if_pos h1]
    by_cases h2 : "delta_ph_interval" = key
    · rw [if_pos h2, if_pos h2]
    by_cases h3 : "delta_ph" = key
    · rw [if_pos h3, if_pos h3]
    · rw [ho (Ne.symm h3) (Ne.symm h2) (Ne.symm h1)]
  have hprovenance : raw.get? "certificate" = raw'.get? "certificate" := ho (by decide) (by decide) (by decide)
  simp only [normalize, he, hi, hopen, hprovenance]

section

variable {raw : Bundle} {margin : Binary64} {c : Certificate}

theorem estimateOf_toBundle (h : normalize raw margin = .ok c) : estimateOf c.toBundle = estimateOf raw := by
  obtain ⟨-, he, -⟩ := normalize_ok h
  have hb := get?_bundle_estimate h
  rw [he]
  rcases estimateOf_ok he with ⟨-, e⟩ | ⟨-, x, -, -, e, h0, h1⟩
  · rw [e] at hb ⊢
    exact estimateOf_none hb
  · rw [e] at hb ⊢
    have hunit : x.InUnit := Binary64.inUnit_iff.2 (by rw [h0, h1]; rfl)
    exact estimateOf_inside hb (real?_ofReal hunit.1) hunit

theorem infoOf_toBundle (h : normalize raw margin = .ok c) : infoOf c.toBundle = infoOf raw := by
  obtain ⟨-, -, hi, -⟩ := normalize_ok h
  rw [hi, infoOf_mapping (get?_bundle_info h), KeyMap.ofList_entries, infoOf_ok hi, Except.ok.injEq]
  -- without the mark it makes no difference that the mark was set
  apply KeyMap.ext_get?
  intro key
  rw [KeyMap.get?_erase, KeyMap.get?_erase, KeyMap.get?_insert]
  by_cases hk : "normalized" = key
  · rw [if_pos hk, if_pos hk]
  · rw [if_neg hk, if_neg hk, if_neg hk]

theorem normalize_toBundle (h : normalize raw margin = .ok c) (margin' : Binary64) :
    normalize c.toBundle margin' = normalize raw margin' :=
  normalize_congr (estimateOf_toBundle h) (infoOf_toBundle h) (fun h1 h2 h3 => get?_bundle_other h h1 h2 h3) margin'

/-- A bundle that is certified with one margin is certified with every one. -/
theorem normalize_isOk_of_ok (h : normalize raw margin = .ok c) {margin' : Binary64} (hm : ¬BadMargin margin') :
    ∃ c', normalize raw margin' = .ok c' := by
  rcases refused_or_sound raw margin with ⟨e, he⟩ | ⟨-, hs, hi⟩
  · rw [he.normalize_eq] at h
    cases h
  · exact normalize_sound hm hs hi

/-- Of a chain of normalisations only the last margin counts. -/
theorem renormalize_append (h : normalize raw margin = .ok c) {margins : List Binary64}
    (hm : ∀ m ∈ margins, ¬BadMargin m) (last : Binary64) : renormalize c (margins ++ [last]) = normalize raw last := by
  induction margins generalizing margin c with
  | nil =>
    rw [renormalize, List.nil_append, List.foldlM_cons, normalize_toBundle h]
    cases normalize raw last with
    | ok c' => rfl
    | error e => rfl
  | cons m margins ih =>
    obtain ⟨c', hc'⟩ := normalize_isOk_of_ok h (hm m List.mem_cons_self)
    rw [renormalize, List.cons_append, List.foldlM_cons, normalize_toBundle h, hc']
    exact ih hc' fun m' hm' => hm m' (List.mem_cons_of_mem _ hm')

end

/-- A certificate that is normalised again forgets its margin. With every margin that is none to
    be refused there is a certificate of the bundle; the bundle of the certificate has that
    same one; with the first margin it is the certificate itself; and any chain gives what the
    last margin gives at once. -/
theorem renormalize_eq (raw : Bundle) (margin : Binary64) (c : Certificate) (h : normalize raw margin = .ok c) :
    (∀ margin', ¬BadMargin margin' → ∃ c', normalize raw margin' = .ok c' ∧ normalize c.toBundle margin' = .ok c') ∧
    normalize c.toBundle margin = .ok c ∧
    ∀ margins last, (∀ m ∈ margins, ¬BadMargin m) → renormalize c (margins ++ [last]) = normalize raw last := by
  refine ⟨fun margin' hm => ?_, ?_, fun margins last hm => renormalize_append h hm last⟩
  · obtain ⟨c', hc'⟩ := normalize_isOk_of_ok h hm
    exact ⟨c', hc', by rw [normalize_toBundle h, hc']⟩
  · rw [normalize_toBundle h, h]

/-- Normalised with no bound on the error and then with the default margin, the certificate is
    the first one again. -/
theorem renormalize_stale : ∃ c, normalize staleBundle defaultMargin = .ok c ∧ ¬BadMargin (.infinite false) ∧
    renormalize c [.infinite false, defaultMargin] = .ok c := by
  obtain ⟨c, hc⟩ := normalize_sound defaultMargin_good staleBundle_sound.1 staleBundle_sound.2
  have hm : ¬BadMargin (.infinite false) := by
    rw [← validMargin_eq_false]
    decide
  obtain ⟨-, -, hchain⟩ := renormalize_eq staleBundle defaultMargin c hc
  refine ⟨c, hc, hm, ?_⟩
  rw [← hc]
  exact hchain [.infinite false] defaultMargin (by simpa using hm)

end PhaseCert.Certificate
