/-
  PhaseCert.Proofs.Certificate.Decoding — a certificate read back from its tree.

  A certificate is read field by field, and the keys that are no fields go to the open map they
  came from: those of the inner record to its own, all others to the certificate's. That undoes
  writing as long as no open key has a field's name and no double is left out of the tree. Of a
  normalised certificate both hold (`WellKept`), since its fields were taken out of the bundle
  and the doubles come from the unit interval.

  In which order the entries stand makes no difference (`ofTree?_ofList`), so the tree of the
  bundle and the tree of the JSON text, which has the fields first, are read as one certificate.
  It is the one that was written, but that a provenance record which is null is read as none
  (`ofTree?_fields`, `ofTree?_normalized`).
-/
import PhaseCert.Proofs.Certificate.Bundle
import PhaseCert.Proofs.Json.Reader

namespace PhaseCert

/-! ## The inner record -/

namespace CertificateMeta

variable {m : CertificateMeta}

theorem keysDiffer_fields (h : m.extra.get? "normalized" = none) : KeysDiffer m.fields :=
  KeyMap.keysDiffer_append (List.pairwise_singleton _ ("normalized", Tree.bool m.normalized)) (by simpa using h)

/-- The mark is taken out, and the other keys are the open ones. -/
theorem ofTree?_written (h : m.extra.get? "normalized" = none) : ofTree? m.written = some m := by
  have hextra : (KeyMap.ofList m.fields).erase "normalized" = m.extra := by
    apply KeyMap.ext_get?
    intro key
    rw [KeyMap.get?_erase, KeyMap.get?_ofList_of_ne (keysDiffer_fields h), fields, Entries.get?]
    by_cases hk : "normalized" = key
    · rw [if_pos hk, ← hk, h]
    · rw [if_neg hk, if_neg hk]
      rfl
  show some (⟨m.normalized, (KeyMap.ofList m.fields).erase "normalized"⟩ : CertificateMeta) = _
  rw [hextra]

/-- Entries of different keys may be put in key order. -/
theorem ofTree?_ofList {entries : List (String × Tree)} (hd : KeysDiffer entries) :
    ofTree? (.map (KeyMap.ofList entries).entries) = ofTree? (.map entries) := by
  simp only [ofTree?, KeyMap.get?_entries_ofList hd, KeyMap.ofList_entries]

theorem ofTree?_toTree (h : m.extra.get? "normalized" = none) : ofTree? m.toTree = some m := by
  rw [toTree, ofTree?_ofList (keysDiffer_fields h)]
  exact ofTree?_written h

end CertificateMeta

namespace Certificate

/-! ## Certificates that can be read back -/

/-- The doubles are finite, and no open key is a field's name. -/
structure WellKept (c : Certificate) : Prop where
  estimate : ∀ x, c.estimate = some x → x.isFinite = true
  interval : c.interval.Proper
  extra : ∀ key ∈ fieldNames, c.extra.get? key = none
  info : c.info.extra.get? "normalized" = none

theorem wellKept_of_normalize {raw : Bundle} {margin : Binary64} {c : Certificate} (h : normalize raw margin = .ok c) :
    c.WellKept where
  estimate := by
    obtain ⟨-, he, -⟩ := normalize_ok h
    intro x hx
    rcases estimateOf_ok he with ⟨-, e⟩ | ⟨-, y, -, -, e, h0, h1⟩
    · rw [e] at hx
      cases hx
    · rw [e, Option.some.injEq] at hx
      exact hx ▸ isFinite_of_unit h0 h1
  interval := interval_proper h
  extra _ hk := get?_extra_field h hk
  info := by
    obtain ⟨-, -, hi, -⟩ := normalize_ok h
    rw [infoOf_ok hi]
    exact KeyMap.get?_erase_self _ _

/-- Entries of different keys may be put in key order. -/
theorem ofTree?_ofList {entries : List (String × Tree)} (hd : KeysDiffer entries) :
    ofTree? (.map (KeyMap.ofList entries).entries) = ofTree? (.map entries) := by
  simp only [ofTree?, KeyMap.get?_entries_ofList hd, KeyMap.ofList_entries]

section

variable {c : Certificate} (hc : c.WellKept)

include hc

theorem keysDiffer_fields (info : Tree) : KeysDiffer (c.fields info) := by
  rw [fields_eq]
  exact KeyMap.keysDiffer_append (keysDiffer_named c info) fun e he => hc.extra e.1 (fst_mem_fieldNames e he)

theorem get?_fields {key : String} (hk : key ∈ fieldNames) (info : Tree) :
    Entries.get? key (c.fields info) = Entries.get? key (c.named info) := by
  have hopen : Entries.get? key c.extra.entries = none := hc.extra key hk
  rw [fields_eq, Entries.get?_append, hopen, Option.or_none]

/-- Without the fields the open keys are left. -/
theorem erase_fields (info : Tree) :
    ((((KeyMap.ofList (c.fields info)).erase "delta_ph").erase "delta_ph_interval").erase "certificate").erase "meta"
      = c.extra := by
  apply KeyMap.ext_get?
  intro key
  by_cases hk : key ∈ fieldNames
  · rw [hc.extra key hk]
    simp only [fieldNames, List.mem_cons, List.not_mem_nil, or_false] at hk
    simp only [KeyMap.get?_erase, ite_eq_left_iff]
    tauto
  · have hnamed : Entries.get? key (c.named info) = none := by
      rw [Option.eq_none_iff_forall_ne_some]
      exact fun v hv => hk (fst_mem_fieldNames _ (Entries.mem_of_get? hv))
    obtain ⟨h1, h2, h3, h4⟩ := not_mem_fieldNames.1 hk
    rw [KeyMap.get?_erase_of_ne h4.symm, KeyMap.get?_erase_of_ne h2.symm, KeyMap.get?_erase_of_ne h3.symm,
      KeyMap.get?_erase_of_ne h1.symm, KeyMap.get?_ofList_of_ne (keysDiffer_fields hc info), fields_eq,
      Entries.get?_append, hnamed, Option.none_or]
    rfl

/-- What is read from the entries is the certificate, but for a provenance record that is null. -/
theorem ofTree?_fields {info : Tree} (hi : CertificateMeta.ofTree? info = some c.info) :
    ofTree? (.map (c.fields info)) = some { c with provenance := c.provenance.filter (!·.isNull) } := by
  have hget (key : String) (hk : key ∈ fieldNames) := (get?_fields hc hk info).trans (get?_named c info key)
  have hestimate : Entries.get? "delta_ph" (c.fields info) = c.estimate.map Tree.ofReal := hget _ (by decide)
  have hinterval : Entries.get? "delta_ph_interval" (c.fields info) = some c.interval.toTree := hget _ (by decide)
  have hprovenance : Entries.get? "certificate" (c.fields info) = c.provenance := hget _ (by decide)
  have hinfo : Entries.get? "meta" (c.fields info) = some info := hget _ (by decide)
  have hends := Interval.ofTree?_toTree hc.interval
  have hopen := erase_fields hc info
  obtain ⟨estimate, interval, provenance, inner, extra⟩ := c
  cases estimate with
  | none =>
    simp only [ofTree?, hestimate, hinterval, hprovenance, hinfo, hopen, Option.map_none]
    simp only [hends, hi, Option.bind_eq_bind, Option.bind_some]
    rcases provenance with _ | (_ | _) <;> rfl
  | some x =>
    -- the double is finite, so its tree is no null
    rw [Option.map_some, Tree.ofReal_of_isFinite (hc.estimate x rfl)] at hestimate
    simp only [ofTree?, hestimate, hinterval, hprovenance, hinfo, hopen, Tree.real?, Option.map_some]
    simp only [hends, hi, Option.bind_eq_bind, Option.bind_some]
    rcases provenance with _ | (_ | _) <;> rfl

/-- The tree of the bundle has the entries in key order, the written one has the fields first. -/
theorem ofTree?_toTree_eq : ofTree? c.toTree = some { c with provenance := c.provenance.filter (!·.isNull) } := by
  rw [toTree, toBundle, ofTree?_ofList (keysDiffer_fields hc _)]
  exact ofTree?_fields hc (CertificateMeta.ofTree?_toTree hc.info)

theorem ofTree?_written_eq : ofTree? c.written = some { c with provenance := c.provenance.filter (!·.isNull) } :=
  ofTree?_fields hc (CertificateMeta.ofTree?_written hc.info)

end

theorem read?_json (c : Certificate) (indented : Bool) : Json.read? (c.json indented) = some c.written := by
  cases indented
  · exact Json.read?_write none c.written
  · exact Json.read?_write (some 0) c.written

/-- The certificate of a bundle is read back from its tree with both open maps and all that is
    nested in them, and so it is from either form of its text. Only a provenance record that is
    null comes back as none. -/
theorem ofTree?_normalized (raw : Bundle) (margin : Binary64) (c : Certificate) (h : normalize raw margin = .ok c) :
    (c.provenance ≠ some .null → ofTree? c.toTree = some c) ∧
    (c.provenance = some .null → ofTree? c.toTree = some { c with provenance := none }) ∧
    ∀ indented, (Json.read? (c.json indented)).bind ofTree? = ofTree? c.toTree := by
  have hc := wellKept_of_normalize h
  refine ⟨fun hp => ?_, fun hp => ?_, fun indented => ?_⟩
  · have hkept : c.provenance.filter (!·.isNull) = c.provenance := by
      cases ht : c.provenance with
      | none => rfl
      | some t =>
        cases t with
        | null => exact absurd ht hp
        | _ => rfl
    rw [ofTree?_toTree_eq hc, hkept]
  · rw [ofTree?_toTree_eq hc, hp]
    rfl
  · rw [read?_json, Option.bind_some, ofTree?_written_eq hc, ofTree?_toTree_eq hc]

/-- With a provenance record that is null the certificate comes back without one, and without
    one it comes back as it was. -/
theorem ofTree?_normalized_stale :
    (∃ c, normalize staleBundle defaultMargin = .ok c ∧ c.provenance = some .null ∧
      ofTree? c.toTree = some { c with provenance := none }) ∧
    ∃ c, normalize (staleBundle.erase "certificate") defaultMargin = .ok c ∧ c.provenance ≠ some .null ∧
      ofTree? c.toTree = some c := by
  obtain ⟨he, hi⟩ := staleBundle_sound
  constructor
  · obtain ⟨c, hc⟩ := normalize_sound defaultMargin_good he hi
    obtain ⟨-, -, -, -, -, hp, -⟩ := normalize_ok hc
    have hnull : c.provenance = some .null := hp
    exact ⟨c, hc, hnull, (ofTree?_normalized staleBundle defaultMargin c hc).2.1 hnull⟩
  · have he' : SoundEstimate (staleBundle.erase "certificate") := by
      intro t ht
      rw [KeyMap.get?_erase_of_ne (by decide)] at ht
      exact he t ht
    have hi' : SoundInfo (staleBundle.erase "certificate") := by
      intro t ht
      rw [KeyMap.get?_erase_of_ne (by decide)] at ht
      exact hi t ht
    obtain ⟨c, hc⟩ := normalize_sound defaultMargin_good he' hi'
    obtain ⟨-, -, -, -, -, hp, -⟩ := normalize_ok hc
    have hnone : c.provenance ≠ some .null := by
      rw [hp, KeyMap.get?_erase_self]
      intro hnull
      cases hnull
    exact ⟨c, hc, hnone, (ofTree?_normalized _ defaultMargin c hc).1 hnone⟩

end Certificate

end PhaseCert
