/-
  PhaseCert.Proofs.Certificate.Bundle — a bundle, its certificate, and the bundle of that.

  `Refused` says what normalisation refuses, and for which of several reasons: the margin is
  looked at first, then the estimate, then the inner record. What is not refused is certified.

  The bundle of a certificate has the open keys and the fields (`get?_toBundle`). So the bundle
  of a normalised certificate is the one it was made from, but for the estimate, which is a
  double now, the interval, which is fresh, and the mark in the inner record (`Carries`). Both
  together are `normalize_carries`.
-/
import PhaseCert.Proofs.Certificate.Enclosure
import PhaseCert.Proofs.Tree

namespace PhaseCert

namespace Binary64

/-- Below zero; a negative zero is not. -/
def IsNegative (x : Binary64) : Prop := x = .infinite true ∨ (x.isFinite = true ∧ x.toRat < 0)

/-- A number from 0 to 1. -/
def InUnit (x : Binary64) : Prop := x.isFinite = true ∧ 0 ≤ x.toRat ∧ x.toRat ≤ 1

theorem inUnit_iff {x : Binary64} : x.InUnit ↔ (zero.le x && x.le one) = true := by
  rw [Bool.and_eq_true]
  constructor
  · rintro ⟨hf, h0, h1⟩
    rw [Binary64.le_iff zero_isFinite hf, Binary64.le_iff hf one_isFinite, toRat_zero, toRat_one]
    exact ⟨h0, h1⟩
  · rintro ⟨h0, h1⟩
    have hf := isFinite_of_between zero_isFinite one_isFinite h0 h1
    rw [Binary64.le_iff zero_isFinite hf, toRat_zero] at h0
    rw [Binary64.le_iff hf one_isFinite, toRat_one] at h1
    exact ⟨hf, h0, h1⟩

end Binary64

namespace Tree

theorem isNumber_iff {t : Tree} : t.IsNumber ↔ ∃ x, t.real? = some x := by
  constructor
  · rintro (⟨n, rfl⟩ | ⟨x, rfl⟩)
    · exact ⟨_, rfl⟩
    · exact ⟨_, rfl⟩
  · rintro ⟨x, h⟩
    cases t with
    | int n => exact Or.inl ⟨n, rfl⟩
    | float y => exact Or.inr ⟨y, rfl⟩
    | _ => cases h

end Tree

theorem Interval.ofTree?_toTree {i : Interval} (h : i.Proper) : ofTree? i.toTree = some i := by
  rw [toTree, Tree.ofReal_of_isFinite h.lowerFinite, Tree.ofReal_of_isFinite h.upperFinite]
  rfl

namespace Certificate

/-! ## What is refused -/

/-- No margin: not a number, or negative. -/
def BadMargin (margin : Binary64) : Prop := margin.isNaN = true ∨ margin.IsNegative

/-- The estimate of a bundle, if it has one, is a number of the unit interval. -/
def SoundEstimate (raw : Bundle) : Prop := ∀ t, raw.get? "delta_ph" = some t → ∃ x, t.real? = some x ∧ x.InUnit

/-- The inner record of a bundle, if it has one, is a mapping. -/
def SoundInfo (raw : Bundle) : Prop := ∀ t, raw.get? "meta" = some t → ∃ entries, t = .map entries

/-- Why a bundle is refused with a margin: the first reason of these that there is. -/
inductive Refused (raw : Bundle) (margin : Binary64) : CertificateError → Prop
  | margin : BadMargin margin → Refused raw margin (.invalidMargin margin)
  | kind {t : Tree} : ¬BadMargin margin → raw.get? "delta_ph" = some t → ¬t.IsNumber → Refused raw margin (.notNumber t)
  | range {t : Tree} {x : Binary64} : ¬BadMargin margin → raw.get? "delta_ph" = some t → t.real? = some x →
      ¬x.InUnit → Refused raw margin (.outOfRange x)
  | info {t : Tree} : ¬BadMargin margin → SoundEstimate raw → raw.get? "meta" = some t →
      (¬∃ entries, t = .map entries) → Refused raw margin (.malformed t)

theorem validMargin_eq_false {margin : Binary64} : validMargin margin = false ↔ BadMargin margin := by
  rw [← Bool.not_eq_true, validMargin_iff]
  unfold BadMargin Binary64.IsNegative
  cases margin with
  | nan => simp [Binary64.isNaN, Binary64.isFinite]
  | infinite s => cases s <;> simp [Binary64.isNaN, Binary64.isFinite]
  | finite s r =>
    have hf : (Binary64.finite s r).isFinite = true := rfl
    have hlt := Binary64.lt_iff hf Binary64.zero_isFinite
    rw [Binary64.toRat_zero] at hlt
    rw [← hlt]
    simp [Binary64.isNaN, Binary64.isFinite]

section

variable {raw : Bundle} {margin : Binary64} {t : Tree} {x : Binary64}

theorem estimateOf_notNumber (ht : raw.get? "delta_ph" = some t) (hn : ¬t.IsNumber) :
    estimateOf raw = .error (.notNumber t) := by
  have hx : t.real? = none := by
    rw [Option.eq_none_iff_forall_ne_some]
    exact fun x hx => hn (Tree.isNumber_iff.2 ⟨x, hx⟩)
  simp only [estimateOf, ht, hx]

theorem estimateOf_outside (ht : raw.get? "delta_ph" = some t) (hx : t.real? = some x) (hu : ¬x.InUnit) :
    estimateOf raw = .error (.outOfRange x) := by
  simp only [estimateOf, ht, hx]
  exact if_neg fun h => hu (Binary64.inUnit_iff.2 h)

theorem estimateOf_inside (ht : raw.get? "delta_ph" = some t) (hx : t.real? = some x) (hu : x.InUnit) :
    estimateOf raw = .ok (some x) := by
  simp only [estimateOf, ht, hx]
  exact if_pos (Binary64.inUnit_iff.1 hu)

theorem estimateOf_sound (h : SoundEstimate raw) : ∃ estimate, estimateOf raw = .ok estimate := by
  cases ht : raw.get? "delta_ph" with
  | none => exact ⟨_, estimateOf_none ht⟩
  | some t =>
    obtain ⟨x, hx, hu⟩ := h t ht
    exact ⟨_, estimateOf_inside ht hx hu⟩

theorem infoOf_none (ht : raw.get? "meta" = none) : infoOf raw = .ok .empty := by
  simp only [infoOf, ht]

theorem infoOf_mapping {entries : List (String × Tree)} (ht : raw.get? "meta" = some (.map entries)) :
    infoOf raw = .ok ((KeyMap.ofList entries).erase "normalized") := by
  simp only [infoOf, ht]

theorem infoOf_malformed (ht : raw.get? "meta" = some t) (hn : ¬∃ entries, t = .map entries) :
    infoOf raw = .error (.malformed t) := by
  simp only [infoOf, ht]
  cases t with
  | map entries => exact absurd ⟨entries, rfl⟩ hn
  | _ => rfl

theorem infoOf_sound (h : SoundInfo raw) : ∃ info, infoOf raw = .ok info := by
  cases ht : raw.get? "meta" with
  | none => exact ⟨_, infoOf_none ht⟩
  | some t =>
    obtain ⟨entries, rfl⟩ := h t ht
    exact ⟨_, infoOf_mapping ht⟩

theorem normalize_badMargin (h : BadMargin margin) : normalize raw margin = .error (.invalidMargin margin) := by
  simp only [normalize, validMargin_eq_false.2 h]
  rfl

/-- With a margin, a bundle is as good as its estimate and its inner record. -/
theorem normalize_margin (raw : Bundle) (h : ¬BadMargin margin) : ∃ make : Option Binary64 → KeyMap Tree → Certificate,
    normalize raw margin = estimateOf raw >>= fun estimate => infoOf raw >>= fun info => .ok (make estimate info) := by
  have hm : validMargin margin = true := by
    rw [← Bool.not_eq_false, validMargin_eq_false]
    exact h
  simp only [normalize, hm]
  exact ⟨_, rfl⟩

theorem normalize_sound (hm : ¬BadMargin margin) (he : SoundEstimate raw) (hi : SoundInfo raw) :
    ∃ c, normalize raw margin = .ok c := by
  obtain ⟨make, hn⟩ := normalize_margin raw hm
  obtain ⟨estimate, he⟩ := estimateOf_sound he
  obtain ⟨info, hi⟩ := infoOf_sound hi
  rw [hn, he, hi]
  exact ⟨_, rfl⟩

/-- What there is a reason to refuse is refused for that reason. -/
theorem Refused.normalize_eq {e : CertificateError} (h : Refused raw margin e) : normalize raw margin = .error e := by
  cases h with
  | margin hm => exact normalize_badMargin hm
  | kind hm ht hn =>
    obtain ⟨make, h⟩ := normalize_margin raw hm
    rw [h, estimateOf_notNumber ht hn]
    rfl
  | range hm ht hx hu =>
    obtain ⟨make, h⟩ := normalize_margin raw hm
    rw [h, estimateOf_outside ht hx hu]
    rfl
  | info hm hs ht hn =>
    obtain ⟨make, h⟩ := normalize_margin raw hm
    obtain ⟨estimate, he⟩ := estimateOf_sound hs
    rw [h, he, infoOf_malformed ht hn]
    rfl

/-- Every bundle is refused or certified. -/
theorem refused_or_sound (raw : Bundle) (margin : Binary64) :
    (∃ e, Refused raw margin e) ∨ (¬BadMargin margin ∧ SoundEstimate raw ∧ SoundInfo raw) := by
  by_cases hm : BadMargin margin
  · exact Or.inl ⟨_, .margin hm⟩
  by_cases hs : SoundEstimate raw
  · by_cases hi : SoundInfo raw
    · exact Or.inr ⟨hm, hs, hi⟩
    · unfold SoundInfo at hi
      push Not at hi
      obtain ⟨t, ht, hn⟩ := hi
      exact Or.inl ⟨_, .info hm hs ht fun ⟨entries, h⟩ => hn entries h⟩
  · unfold SoundEstimate at hs
    push Not at hs
    obtain ⟨t, ht, hn⟩ := hs
    cases hx : t.real? with
    | none =>
      refine Or.inl ⟨_, .kind hm ht ?_⟩
      rw [Tree.isNumber_iff, hx]
      rintro ⟨x, h⟩
      cases h
    | some x => exact Or.inl ⟨_, .range hm ht hx (hn x hx)⟩

end

/-! ## The entries of a certificate -/

/-- The names of the fields. -/
def fieldNames : List String := ["delta_ph", "certificate", "delta_ph_interval", "meta"]

theorem not_mem_fieldNames {key : String} : key ∉ fieldNames ↔
    key ≠ "delta_ph" ∧ key ≠ "certificate" ∧ key ≠ "delta_ph_interval" ∧ key ≠ "meta" := by
  simp [fieldNames]

/-- The fields that are written before the inner record. -/
def leading (c : Certificate) : List (String × Tree) :=
  (c.estimate.map fun x => ("delta_ph", Tree.ofReal x)).toList
    ++ ("delta_ph_interval", c.interval.toTree) :: (c.provenance.map fun t => ("certificate", t)).toList

/-- All the fields there are, without the open keys. -/
def named (c : Certificate) (info : Tree) : List (String × Tree) := c.leading ++ [("meta", info)]

theorem fields_eq (c : Certificate) (info : Tree) : c.fields info = c.named info ++ c.extra.entries := by
  simp [fields, named, leading]

theorem fst_mem_fieldNames {c : Certificate} {info : Tree} : ∀ e ∈ c.named info, e.1 ∈ fieldNames := by
  unfold named leading
  cases c.estimate <;> cases c.provenance <;> simp [fieldNames]

theorem keysDiffer_named (c : Certificate) (info : Tree) : KeysDiffer (c.named info) := by
  unfold named leading KeysDiffer
  cases c.estimate <;> cases c.provenance <;> simp

theorem get?_toList {α : Type} (k key : String) (v : Option α) :
    Entries.get? key (v.map fun x => (k, x)).toList = if key = k then v else none := by
  cases v with
  | none => simp [Entries.get?]
  | some x => simp [Entries.get?, eq_comm]

theorem get?_named (c : Certificate) (info : Tree) (key : String) : Entries.get? key (c.named info) =
    if key = "meta" then some info
    else if key = "certificate" then c.provenance
    else if key = "delta_ph_interval" then some c.interval.toTree
    else if key = "delta_ph" then c.estimate.map Tree.ofReal
    else none := by
  have hentries : c.named info = ((c.estimate.map Tree.ofReal).map fun t => ("delta_ph", t)).toList
      ++ ((some c.interval.toTree).map fun t => ("delta_ph_interval", t)).toList
      ++ (c.provenance.map fun t => ("certificate", t)).toList
      ++ ((some info).map fun t => ("meta", t)).toList := by
    simp [named, leading, Function.comp_def]
  simp only [hentries, Entries.get?_append, get?_toList]
  by_cases h1 : key = "meta"
  · simp [h1]
  by_cases h2 : key = "certificate"
  · simp [h2]
  by_cases h3 : key = "delta_ph_interval"
  · simp [h3]
  · simp [h1, h2, h3]

/-! ## The bundle of a certificate -/

/-- The field under a key, as a tree. -/
def field? (c : Certificate) (key : String) : Option Tree :=
  if key = "meta" then some c.info.toTree
  else if key = "certificate" then c.provenance
  else if key = "delta_ph_interval" then some c.interval.toTree
  else if key = "delta_ph" then c.estimate.map Tree.ofReal
  else none

/-- An open key is found in the bundle before a field of that name. -/
theorem get?_toBundle (c : Certificate) (key : String) : c.toBundle.get? key = (c.extra.get? key).or (c.field? key) := by
  rw [toBundle, KeyMap.get?_ofList, fields_eq, List.reverse_append, Entries.get?_append,
    Entries.get?_reverse c.extra.keysGrow.keysDiffer, Entries.get?_reverse (keysDiffer_named c _), get?_named]
  rfl

/-- The entries of a bundle's inner record; a bundle without one has none. -/
def infoEntries (raw : Bundle) : KeyMap Tree :=
  match raw.get? "meta" with
  | some (.map entries) => .ofList entries
  | _ => .empty

section

variable {raw : Bundle} {margin : Binary64} {c : Certificate}

theorem infoOf_ok {info : KeyMap Tree} (h : infoOf raw = .ok info) : info = (infoEntries raw).erase "normalized" := by
  unfold infoEntries
  cases ht : raw.get? "meta" with
  | none =>
    rw [infoOf_none ht, Except.ok.injEq] at h
    rw [← h]
    rfl
  | some t =>
    cases t with
    | map entries =>
      rw [infoOf_mapping ht, Except.ok.injEq] at h
      exact h.symm
    | _ =>
      rw [infoOf_malformed ht (by rintro ⟨_, h⟩; cases h)] at h
      cases h

/-- An inner record with its mark is the one that had it taken out, with the mark set. -/
theorem info_toTree (b : Bool) (m : KeyMap Tree) :
    (CertificateMeta.mk b (m.erase "normalized")).toTree = .map (m.insert "normalized" (.bool b)).entries := by
  have : KeyMap.ofList (CertificateMeta.mk b (m.erase "normalized")).fields = m.insert "normalized" (.bool b) := by
    apply KeyMap.ext_get?
    intro key
    have herase : Entries.get? key (m.erase "normalized").entries = if "normalized" = key then none else m.get? key :=
      KeyMap.get?_erase m "normalized" key
    rw [KeyMap.get?_ofList, CertificateMeta.fields, List.reverse_cons, Entries.get?_append,
      Entries.get?_reverse (KeyMap.keysGrow _).keysDiffer, herase, KeyMap.get?_insert]
    by_cases h : "normalized" = key
    · simp only [if_pos h, Entries.get?, Option.none_or]
    · simp only [if_neg h, Entries.get?, Option.or_none]
  rw [CertificateMeta.toTree, this]

/-- The open keys of a certificate are the keys of its bundle that are no fields. -/
theorem get?_extra (h : normalize raw margin = .ok c) {key : String} (h1 : key ≠ "delta_ph")
    (h2 : key ≠ "certificate") (h3 : key ≠ "delta_ph_interval") (h4 : key ≠ "meta") : c.extra.get? key = raw.get? key := by
  obtain ⟨-, -, -, -, -, -, hextra⟩ := normalize_ok h
  rw [hextra, KeyMap.get?_erase_of_ne h4.symm, KeyMap.get?_erase_of_ne h3.symm, KeyMap.get?_erase_of_ne h2.symm,
    KeyMap.get?_erase_of_ne h1.symm]

theorem get?_extra_field (h : normalize raw margin = .ok c) {key : String}
    (hk : key ∈ fieldNames) : c.extra.get? key = none := by
  obtain ⟨-, -, -, -, -, -, hextra⟩ := normalize_ok h
  rw [hextra]
  simp only [fieldNames, List.mem_cons, List.not_mem_nil, or_false] at hk
  rcases hk with rfl | rfl | rfl | rfl
  · exact KeyMap.get?_erase_of_none
      (KeyMap.get?_erase_of_none (KeyMap.get?_erase_of_none (KeyMap.get?_erase_self _ _) _) _) _
  · exact KeyMap.get?_erase_of_none (KeyMap.get?_erase_of_none (KeyMap.get?_erase_self _ _) _) _
  · exact KeyMap.get?_erase_of_none (KeyMap.get?_erase_self _ _) _
  · exact KeyMap.get?_erase_self _ _

/-- Under a field's name the bundle of a normalised certificate has the field. -/
theorem get?_bundle_field (h : normalize raw margin = .ok c) {key : String}
    (hk : key ∈ fieldNames) : c.toBundle.get? key = c.field? key := by
  rw [get?_toBundle, get?_extra_field h hk, Option.none_or]

/-- But for the estimate, the interval and the inner record, it has what the first bundle has. -/
theorem get?_bundle_other (h : normalize raw margin = .ok c) {key : String} (h1 : key ≠ "delta_ph")
    (h2 : key ≠ "delta_ph_interval") (h3 : key ≠ "meta") : c.toBundle.get? key = raw.get? key := by
  by_cases hc : key = "certificate"
  · obtain ⟨-, -, -, -, -, hp, -⟩ := normalize_ok h
    rw [get?_bundle_field h (by simp [fieldNames, hc]), field?, if_neg h3, if_pos hc, hp, hc]
  · rw [get?_toBundle, get?_extra h h1 hc h2 h3, field?, if_neg h3, if_neg hc, if_neg h2, if_neg h1, Option.or_none]

theorem get?_bundle_info (h : normalize raw margin = .ok c) :
    c.toBundle.get? "meta" = some (.map ((infoEntries raw).insert "normalized" (.bool true)).entries) := by
  obtain ⟨-, -, hi, hn, -, -, -⟩ := normalize_ok h
  have hinfo : c.info = ⟨true, (infoEntries raw).erase "normalized"⟩ := by
    rw [← hn, ← infoOf_ok hi]
  rw [get?_bundle_field h (by simp [fieldNames]), field?, if_pos rfl, hinfo, info_toTree]

theorem get?_bundle_interval (h : normalize raw margin = .ok c) :
    c.toBundle.get? "delta_ph_interval" = some c.interval.toTree := by
  rw [get?_bundle_field h (by simp [fieldNames]), field?, if_neg (by decide), if_neg (by decide), if_pos rfl]

theorem get?_bundle_estimate (h : normalize raw margin = .ok c) :
    c.toBundle.get? "delta_ph" = c.estimate.map Tree.ofReal := by
  rw [get?_bundle_field h (by simp [fieldNames]), field?, if_neg (by decide), if_neg (by decide), if_neg (by decide), if_pos rfl]

end

/-! ## What is carried over -/

/-- The tree holds the ends of this interval, as doubles. -/
def IsInterval (t : Tree) (i : Interval) : Prop :=
  ∃ lower upper : Finite64, t = .map [("lower", .float lower), ("upper", .float upper)] ∧ i = ⟨lower, upper⟩

theorem isInterval_toTree {i : Interval} (h : i.Proper) : IsInterval i.toTree i := by
  refine ⟨⟨i.lower, h.lowerFinite⟩, ⟨i.upper, h.upperFinite⟩, ?_, rfl⟩
  rw [Interval.toTree, Tree.ofReal_of_isFinite h.lowerFinite, Tree.ofReal_of_isFinite h.upperFinite]

/-- What a bundle has of the one that was normalised with a margin. -/
structure Carries (raw : Bundle) (margin : Binary64) (b : Bundle) : Prop where
  keys (key : String) : b.contains key = true ↔ raw.contains key = true ∨ key = "delta_ph_interval" ∨ key = "meta"
  others {key : String} : key ≠ "delta_ph" → key ≠ "delta_ph_interval" → key ≠ "meta" → b.get? key = raw.get? key
  noEstimate : raw.get? "delta_ph" = none → b.get? "delta_ph" = none
  estimate {t : Tree} : raw.get? "delta_ph" = some t →
    ∃ x : Finite64, t.real? = some x.val ∧ b.get? "delta_ph" = some (.float x)
  /-- The mark is set, whatever it was, and the other entries are as they were. -/
  info : b.get? "meta" = some (.map ((infoEntries raw).insert "normalized" (.bool true)).entries)
  /-- The interval is made from the estimate and the margin, whatever interval there was. -/
  interval {t : Tree} {x : Binary64} : raw.get? "delta_ph" = some t → t.real? = some x →
    ∃ i, b.get? "delta_ph_interval" = some i ∧ IsInterval i (.around x margin)
  unit : raw.get? "delta_ph" = none → ∃ i, b.get? "delta_ph_interval" = some i ∧ IsInterval i .unit

section

variable {raw : Bundle} {margin : Binary64} {c : Certificate} (h : normalize raw margin = .ok c)

include h

theorem get?_bundle_none (ht : raw.get? "delta_ph" = none) : c.toBundle.get? "delta_ph" = none := by
  obtain ⟨-, he, -⟩ := normalize_ok h
  rw [estimateOf_none ht, Except.ok.injEq] at he
  rw [get?_bundle_estimate h, ← he, Option.map_none]

theorem get?_bundle_some {t : Tree} (ht : raw.get? "delta_ph" = some t) :
    ∃ x : Finite64, t.real? = some x.val ∧ c.toBundle.get? "delta_ph" = some (.float x) := by
  obtain ⟨-, he, -⟩ := normalize_ok h
  rcases estimateOf_ok he with ⟨ht', -⟩ | ⟨t', x, ht', hx, e, h0, h1⟩
  · rw [ht] at ht'
    cases ht'
  · rw [ht, Option.some.injEq] at ht'
    have hf := isFinite_of_unit h0 h1
    refine ⟨⟨x, hf⟩, ht' ▸ hx, ?_⟩
    rw [get?_bundle_estimate h, e, Option.map_some, Tree.ofReal_of_isFinite hf]

theorem contains_toBundle (key : String) :
    c.toBundle.contains key = true ↔ raw.contains key = true ∨ key = "delta_ph_interval" ∨ key = "meta" := by
  rw [KeyMap.contains_eq_true, KeyMap.contains_eq_true]
  by_cases h1 : key = "delta_ph_interval"
  · simp [h1, get?_bundle_interval h]
  by_cases h2 : key = "meta"
  · simp [h2, get?_bundle_info h]
  by_cases h3 : key = "delta_ph"
  · subst h3
    cases ht : raw.get? "delta_ph" with
    | none => simp [get?_bundle_none h ht]
    | some t =>
      obtain ⟨x, -, hx⟩ := get?_bundle_some h ht
      simp [hx]
  · simp only [get?_bundle_other h h3 h1 h2, h1, h2, or_false]

theorem carries_toBundle : Carries raw margin c.toBundle where
  keys := contains_toBundle h
  others := get?_bundle_other h
  noEstimate := get?_bundle_none h
  estimate := get?_bundle_some h
  info := get?_bundle_info h
  interval := by
    intro t x ht hx
    obtain ⟨x', hx', -, -, -, -, hi⟩ := interval_of_estimate h ht
    rw [hx, Option.some.injEq] at hx'
    rw [hx', ← hi]
    exact ⟨_, get?_bundle_interval h, isInterval_toTree (interval_proper h)⟩
  unit := by
    intro ht
    obtain ⟨-, he, -, -, hi, -, -⟩ := normalize_ok h
    rw [estimateOf_none ht, Except.ok.injEq] at he
    rw [← he] at hi
    rw [show Interval.unit = c.interval from hi.symm]
    exact ⟨_, get?_bundle_interval h, isInterval_toTree (interval_proper h)⟩

end

/-- Normalisation refuses what there is a reason to refuse, for the first of the reasons, and
    certifies everything else; and the bundle of the certificate has what the first bundle has. -/
theorem normalize_carries (raw : Bundle) (margin : Binary64) :
    (∀ e, normalize raw margin = .error e ↔ Refused raw margin e) ∧
    ((∃ c, normalize raw margin = .ok c) ↔ ¬BadMargin margin ∧ SoundEstimate raw ∧ SoundInfo raw) ∧
    ∀ c, normalize raw margin = .ok c → Carries raw margin c.toBundle := by
  have hsplit := refused_or_sound raw margin
  refine ⟨fun e => ⟨fun h => ?_, Refused.normalize_eq⟩, ⟨?_, ?_⟩, fun c => carries_toBundle⟩
  · rcases hsplit with ⟨e', he'⟩ | ⟨hm, hs, hi⟩
    · rw [he'.normalize_eq, Except.error.injEq] at h
      exact h ▸ he'
    · obtain ⟨c, hc⟩ := normalize_sound hm hs hi
      rw [hc] at h
      cases h
  · rintro ⟨c, hc⟩
    rcases hsplit with ⟨e, he⟩ | hsound
    · rw [he.normalize_eq] at hc
      cases hc
    · exact hsound
  · rintro ⟨hm, hs, hi⟩
    exact normalize_sound hm hs hi

/-- A bundle that was normalised before: its estimate is an integer, its interval is stale, its
    mark is not set and its provenance record is null. -/
def staleBundle : Bundle :=
  .ofList [("delta_ph", .int ⟨1, by decide⟩), ("delta_ph_interval", .text "stale"), ("certificate", .null),
    ("meta", .map [("normalized", .bool false), ("source", .text "lab")])]

theorem defaultMargin_good : ¬BadMargin defaultMargin := by
  rw [← validMargin_eq_false]
  decide +kernel

theorem staleBundle_sound : SoundEstimate staleBundle ∧ SoundInfo staleBundle := by
  constructor
  · intro t ht
    cases ht
    refine ⟨_, rfl, ?_⟩
    rw [Binary64.inUnit_iff]
    decide +kernel
  · intro t ht
    cases ht
    exact ⟨_, rfl⟩

theorem normalize_carries_stale : ∃ c, normalize staleBundle defaultMargin = .ok c ∧
    c.toBundle.get? "certificate" = some .null ∧ c.toBundle.get? "delta_ph" = some (.float ⟨.one, Binary64.one_isFinite⟩) ∧
    c.toBundle.get? "meta" = some (.map [("normalized", .bool true), ("source", .text "lab")]) := by
  obtain ⟨-, hok, hcarries⟩ := normalize_carries staleBundle defaultMargin
  obtain ⟨c, hc⟩ := hok.2 ⟨defaultMargin_good, staleBundle_sound⟩
  have hb := hcarries c hc
  refine ⟨c, hc, hb.others (by decide) (by decide) (by decide), ?_, hb.info⟩
  obtain ⟨⟨x, hf⟩, hx, h⟩ := hb.estimate (show staleBundle.get? "delta_ph" = some (.int ⟨1, by decide⟩) from rfl)
  have hone : Binary64.ofInt 1 = .one := by decide +kernel
  have hx' : x = .one := by
    rw [← hone]
    exact (Option.some.inj hx).symm
  subst hx'
  exact h

end Certificate

end PhaseCert
