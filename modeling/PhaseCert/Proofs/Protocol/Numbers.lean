/-
  PhaseCert.Proofs.Protocol.Numbers — a number where the schema asks for one, and as a parameter.

  The schema asks for numbers at the places of `RealField`, and at no others (`asksReal_iff`).
  There a tree is read as a number at once. Among the parameters a tree is first stored as the
  scalar that it is, and turned into a number only where it is looked up. The number is the same,
  or there is none (`real?_eq_some_iff`): an integer past 2^63 is rounded when it is stored and
  not again, and a text is kept as it is and read without the blanks around it.

  So a tree is loaded at a place of the schema exactly if it is loaded as a parameter and can be
  looked up there, whatever the default, and it is the same finite double (`ofDocument_real`).
-/
import PhaseCert.Proofs.Protocol.Content
import PhaseCert.Proofs.Protocol.Store

namespace PhaseCert

/-! ## What stands below -/

namespace Tree

variable {t x : Tree} {rest : Place}

/-- Nothing stands below a null. -/
theorem value?_of_at? {key : String} {step : Step} (hx : t.at? (.key key :: step :: rest) = some x) :
    ∃ v, t.value? key = some v ∧ v.at? (step :: rest) = some x := by
  obtain ⟨v, hv, hx⟩ := Option.bind_eq_some_iff.1 hx
  have hnull : v.isNull = false := by
    cases v with
    | null => cases step <;> cases hx
    | _ => rfl
  exact ⟨v, by simp [Tree.value?, hv, Option.filter_some, hnull], hx⟩

theorem Under.at? {key : String} {p : Tree → Prop} (h : t.Under key p) (hx : t.at? (.key key :: rest) = some x) :
    ∃ v, p v ∧ v.at? rest = some x := by
  obtain ⟨v, hv, hp⟩ := h
  obtain ⟨hget, -⟩ := Option.filter_eq_some_iff.1 hv
  rw [Tree.at?, hget, Option.bind_some] at hx
  exact ⟨v, hp, hx⟩

theorem Under.holds {key : String} {p : Tree → Prop} (h : t.Under key p) (hx : t.at? [.key key] = some x) : p x := by
  obtain ⟨v, hp, hv⟩ := h.at? hx
  rw [at?_nil, Option.some.injEq] at hv
  rwa [← hv]

section

variable {α : Type} {holds : Tree → α → Prop} {xs : List α} {i : Nat}

theorem HoldsList.at? (h : t.HoldsList holds xs) (hx : t.at? (.item i :: rest) = some x) :
    ∃ a v, xs[i]? = some a ∧ holds v a ∧ v.at? rest = some x := by
  obtain ⟨items, rfl, hall⟩ := h
  obtain ⟨v, hv, hrest⟩ := Option.bind_eq_some_iff.1 hx
  obtain ⟨hi, rfl⟩ := List.getElem?_eq_some_iff.1 hv
  obtain ⟨hlength, hget⟩ := List.forall₂_iff_get.1 hall
  have hi' : i < xs.length := hlength ▸ hi
  exact ⟨xs[i], _, List.getElem?_eq_getElem hi', hget i hi hi', hrest⟩

theorem HoldsListUnder.at? {key : String} (h : t.HoldsListUnder holds key xs)
    (hx : t.at? (.key key :: .item i :: rest) = some x) : ∃ a v, xs[i]? = some a ∧ holds v a ∧ v.at? rest = some x := by
  obtain ⟨v, hv, hx⟩ := value?_of_at? hx
  rw [HoldsListUnder, hv] at h
  exact h.at? hx

end

end Tree

/-! ## The numbers of a protocol -/

/-- A part of a complex amplitude. -/
inductive Part where
  | re
  | im

namespace Part

def key : Part → String
  | re => "re"
  | im => "im"

def of : Part → Amplitude → Binary64
  | re, a => a.re
  | im, a => a.im

end Part

theorem Tree.HoldsAmplitude.part {t x : Tree} {a : Amplitude} (h : t.HoldsAmplitude a) {part : Part}
    (hx : t.at? [.key part.key] = some x) : x.HoldsReal (part.of a) := by
  cases part with
  | re => exact h.re.holds hx
  | im => exact h.im.holds hx

/-- The schema asks for a number at this place. -/
def Schema.AsksReal : Schema → Place → Prop
  | is kind, place => kind = Tree.IsReal ∧ place = []
  | items item, place => ∃ i rest, place = .item i :: rest ∧ item.AsksReal rest
  | values value, place => ∃ key rest, place = .key key :: rest ∧ value.AsksReal rest
  | optional key value, place => ∃ rest, place = .key key :: rest ∧ value.AsksReal rest
  | without _ schema, place => schema.AsksReal place
  | both first second, place => first.AsksReal place ∨ second.AsksReal place
  | rectangular, _ | present _ _, _ | anything, _ => False

/-- A number that the schema asks for. -/
inductive RealField where
  | prior (state : Nat)
  | amplitude (state entry : Nat) (part : Part)
  | element (element row column : Nat) (part : Part)
  | eta
  | darkCount
  | detectorEfficiency
  | targetFailure
  | inefficiency
  | securityParameter
  | conclusive
  | conclusiveErrorRate
  | inconclusive
  | epsilon

namespace RealField

def place : RealField → Place
  | prior i => [.key "states", .item i, .key "p"]
  | amplitude i j part => [.key "states", .item i, .key "vec", .item j, .key part.key]
  | element i j k part => [.key "measurements", .key "povm", .item i, .key "matrix", .item j, .item k, .key part.key]
  | eta => [.key "device", .key "eta"]
  | darkCount => [.key "device", .key "dark_count"]
  | detectorEfficiency => [.key "device", .key "detector_efficiency"]
  | targetFailure => [.key "postprocessing", .key "error_correction", .key "target_ferr"]
  | inefficiency => [.key "postprocessing", .key "error_correction", .key "inefficiency_f"]
  | securityParameter => [.key "postprocessing", .key "privacy_amplification", .key "security_parameter"]
  | conclusive => [.key "observed", .key "p_conclusive"]
  | conclusiveErrorRate => [.key "observed", .key "error_rate_conclusive"]
  | inconclusive => [.key "observed", .key "p_inconclusive"]
  | epsilon => [.key "security_goal", .key "epsilon"]

/-- The number in a protocol, if the protocol has as many states, elements and entries. -/
def value? (p : Protocol) : RealField → Option Binary64
  | prior i => do
    let s ← p.states[i]?
    return s.prior
  | amplitude i j part => do
    let s ← p.states[i]?
    let a ← s.amplitudes[j]?
    return part.of a
  | element i j k part => do
    let e ← p.measurement.povm[i]?
    let row ← e.matrix[j]?
    let a ← row[k]?
    return part.of a
  | eta => some p.device.eta
  | darkCount => some p.device.darkCount
  | detectorEfficiency => some p.device.detectorEfficiency
  | targetFailure => some p.postprocessing.errorCorrection.targetFailure
  | inefficiency => some p.postprocessing.errorCorrection.inefficiency
  | securityParameter => some p.postprocessing.privacyAmplification.securityParameter
  | conclusive => some p.observed.conclusive
  | conclusiveErrorRate => some p.observed.conclusiveErrorRate
  | inconclusive => some p.observed.inconclusive
  | epsilon => some p.securityGoal.epsilon

/-- A kind that some tree other than a number is of is not that of numbers. -/
theorem ne_isReal {kind : Tree → Prop} {t : Tree} (hk : kind t) (ht : ¬t.IsReal) : kind ≠ Tree.IsReal := by
  rintro rfl
  exact ht hk

/-- These are all the numbers that the schema asks for. -/
theorem asksReal_iff (place : Place) : Schema.protocol.AsksReal place ↔ ∃ F : RealField, F.place = place := by
  have hmapping : Tree.IsMapping ≠ Tree.IsReal := ne_isReal (t := .map []) ⟨[], rfl⟩ (by simp [Tree.IsReal])
  have hsequence : Tree.IsSequence ≠ Tree.IsReal := ne_isReal (t := .seq []) ⟨[], rfl⟩ (by simp [Tree.IsReal])
  have hflag : Tree.IsFlag ≠ Tree.IsReal := ne_isReal (t := .bool true) ⟨true, rfl⟩ (by simp [Tree.IsReal])
  have htext : Tree.IsText ≠ Tree.IsReal :=
    ne_isReal (t := .bool true) (by simp [Tree.IsText]) (by simp [Tree.IsReal])
  have hscalar : Tree.IsScalar ≠ Tree.IsReal :=
    ne_isReal (t := .bool true) (by simp [Tree.IsScalar]) (by simp [Tree.IsReal])
  simp only [Schema.protocol, Schema.record, Schema.all, Schema.identity, Schema.required, Schema.text, Schema.flag,
    Schema.scalar, Schema.real, Schema.table, Schema.list, Schema.state, Schema.amplitude, Schema.measurement,
    Schema.povmElement, Schema.matrix, Schema.device, Schema.postprocessing, Schema.errorCorrection,
    Schema.privacyAmplification, Schema.observed, Schema.securityGoal, Schema.authorship, Schema.AsksReal, hmapping,
    hsequence, hflag, htext, hscalar, false_and, and_false, exists_false, or_false, false_or, true_and, exists_eq_right]
  constructor
  · intro h
    rcases h with ⟨_, rfl, i, _, rfl, rfl | ⟨_, rfl, j, _, rfl, rfl | rfl⟩⟩ |
      ⟨_, rfl, _, rfl, i, _, rfl, _, rfl, j, _, rfl, k, _, rfl, rfl | rfl⟩ | ⟨_, rfl, rfl | rfl | rfl⟩ |
      ⟨_, rfl, ⟨_, rfl, rfl | rfl⟩ | ⟨_, rfl, rfl⟩⟩ | ⟨_, rfl, rfl | rfl | rfl⟩ | ⟨_, rfl, rfl⟩
    · exact ⟨.prior i, rfl⟩
    · exact ⟨.amplitude i j .re, rfl⟩
    · exact ⟨.amplitude i j .im, rfl⟩
    · exact ⟨.element i j k .re, rfl⟩
    · exact ⟨.element i j k .im, rfl⟩
    · exact ⟨.eta, rfl⟩
    · exact ⟨.darkCount, rfl⟩
    · exact ⟨.detectorEfficiency, rfl⟩
    · exact ⟨.targetFailure, rfl⟩
    · exact ⟨.inefficiency, rfl⟩
    · exact ⟨.securityParameter, rfl⟩
    · exact ⟨.conclusive, rfl⟩
    · exact ⟨.conclusiveErrorRate, rfl⟩
    · exact ⟨.inconclusive, rfl⟩
    · exact ⟨.epsilon, rfl⟩
  · rintro ⟨F, rfl⟩
    cases F with
    | amplitude i j part => cases part <;> simp [place, Part.key]
    | element i j k part => cases part <;> simp [place, Part.key]
    | _ => simp [place]

end RealField

namespace Protocol

/-- The number that a loaded protocol has is held by the tree at its place. -/
theorem ReadFrom.value?_at {p : Protocol} {document x : Tree} (h : p.ReadFrom ⟨[], document⟩) (F : RealField)
    (hx : document.at? F.place = some x) : ∃ r, F.value? p = some r ∧ x.HoldsReal r := by
  cases F with
  | prior i =>
    obtain ⟨s, v, hs, hv, hx⟩ := h.holdsLists.states.at? hx
    exact ⟨s.prior, by simp [RealField.value?, hs], hv.prior.holds hx⟩
  | amplitude i j part =>
    obtain ⟨s, v, hs, hv, hx⟩ := h.holdsLists.states.at? hx
    obtain ⟨w, hw, hx⟩ := hv.amplitudes.at? hx
    obtain ⟨a, u, ha, hu, hx⟩ := hw.at? hx
    exact ⟨part.of a, by simp [RealField.value?, hs, ha], hu.part hx⟩
  | element i j k part =>
    obtain ⟨m, hm, hx⟩ := Tree.value?_of_at? hx
    have hpovm := h.holdsLists.povm
    simp only [hm] at hpovm
    obtain ⟨e, v, he, hv, hx⟩ := hpovm.at? hx
    obtain ⟨w, hw, hx⟩ := hv.matrix.at? hx
    obtain ⟨row, u, hrow, hu, hx⟩ := hw.at? hx
    obtain ⟨a, z, ha, hz, hx⟩ := hu.at? hx
    exact ⟨part.of a, by simp [RealField.value?, he, hrow, ha], hz.part hx⟩
  | eta =>
    obtain ⟨s, hs, hx⟩ := (Located.device_ok h.device).at? hx
    exact ⟨_, rfl, hs.eta.holds hx⟩
  | darkCount =>
    obtain ⟨s, hs, hx⟩ := (Located.device_ok h.device).at? hx
    exact ⟨_, rfl, hs.darkCount.holds hx⟩
  | detectorEfficiency =>
    obtain ⟨s, hs, hx⟩ := (Located.device_ok h.device).at? hx
    exact ⟨_, rfl, hs.detectorEfficiency.holds hx⟩
  | targetFailure =>
    obtain ⟨s, hs, hx⟩ := (Located.postprocessing_ok h.postprocessing).at? hx
    obtain ⟨c, hc, hx⟩ := hs.errorCorrection.at? hx
    exact ⟨_, rfl, hc.targetFailure.holds hx⟩
  | inefficiency =>
    obtain ⟨s, hs, hx⟩ := (Located.postprocessing_ok h.postprocessing).at? hx
    obtain ⟨c, hc, hx⟩ := hs.errorCorrection.at? hx
    exact ⟨_, rfl, hc.inefficiency.holds hx⟩
  | securityParameter =>
    obtain ⟨s, hs, hx⟩ := (Located.postprocessing_ok h.postprocessing).at? hx
    obtain ⟨a, ha, hx⟩ := hs.privacyAmplification.at? hx
    exact ⟨_, rfl, ha.securityParameter.holds hx⟩
  | conclusive =>
    obtain ⟨s, hs, hx⟩ := (Located.observed_ok h.observed).at? hx
    exact ⟨_, rfl, hs.conclusive.holds hx⟩
  | conclusiveErrorRate =>
    obtain ⟨s, hs, hx⟩ := (Located.observed_ok h.observed).at? hx
    exact ⟨_, rfl, hs.conclusiveErrorRate.holds hx⟩
  | inconclusive =>
    obtain ⟨s, hs, hx⟩ := (Located.observed_ok h.observed).at? hx
    exact ⟨_, rfl, hs.inconclusive.holds hx⟩
  | epsilon =>
    obtain ⟨s, hs, hx⟩ := (Located.securityGoal_ok h.securityGoal).at? hx
    exact ⟨_, rfl, hs.epsilon.holds hx⟩

/-- The schema takes any number where it asks for one. -/
theorem takes_real {x : Tree} (hx : x.IsReal) (F : RealField) : Schema.protocol.Takes x F.place := by
  cases F <;> simp [RealField.place, Schema.protocol, Schema.record, Schema.all, Schema.identity, Schema.required,
    Schema.list, Schema.state, Schema.amplitude, Schema.measurement, Schema.povmElement, Schema.matrix, Schema.device,
    Schema.postprocessing, Schema.errorCorrection, Schema.privacyAmplification, Schema.observed, Schema.securityGoal,
    Schema.real, Schema.Takes, Schema.Valid, hx]

end Protocol

/-! ## Numbers among the parameters -/

theorem Tree.HoldsReal.isReal {t : Tree} {x : Binary64} (h : t.HoldsReal x) : t.IsReal := by
  cases h with
  | int n => exact Or.inl ⟨n, rfl⟩
  | float x => exact Or.inr (Or.inl ⟨x, rfl⟩)
  | text hd hx => exact Or.inr (Or.inr ⟨_, _, _, rfl, hd, hx⟩)

theorem Tree.IsReal.isScalar {t : Tree} (h : t.IsReal) : t.IsScalar := by
  rcases h with h | h | ⟨s, _, _, h, -⟩
  · exact Or.inl h
  · exact Or.inr (Or.inl h)
  · exact Or.inr (Or.inr (Or.inr ⟨s, h⟩))

theorem Tree.HoldsReal.isNull {t : Tree} {x : Binary64} (h : t.HoldsReal x) : t.isNull = false := by
  cases h <;> rfl

namespace ParamValue

/-- Every scalar can be stored. -/
theorem exists_ofTree? {t : Tree} (h : t.IsScalar) : ∃ v, ofTree? t = some v := by
  have hchecks := (Schema.valid_iff_checks Schema.scalar ⟨[], t⟩).1 h
  obtain ⟨v, hv⟩ := (Located.parameter_reports ⟨[], t⟩).isOk_iff.2 hchecks
  exact ⟨v, Located.parameter_eq_ok.1 hv⟩

/-- An integer is rounded once at most: when it is stored, or when it is looked up. -/
theorem real?_of_int {n : Whole} {v : ParamValue} (h : ofTree? (.int n) = some v) : v.real? = some (.ofInt n.val) := by
  by_cases hn : n.val < 9223372036854775808
  · simp only [ofTree?, Whole.signed?, dif_pos hn, Option.some.injEq] at h
    rw [← h, real?]
  · simp only [ofTree?, Whole.signed?, dif_neg hn, Option.some.injEq] at h
    rw [← h, real?]

/-- A scalar that is stored is afterwards the number that it held, or none if it held none. -/
theorem real?_eq_some_iff {t : Tree} {v : ParamValue} (h : ofTree? t = some v) {r : Binary64} :
    v.real? = some r ∧ r.isFinite = true ↔ t.HoldsReal r := by
  constructor
  · rintro ⟨hv, hr⟩
    cases t with
    | int n =>
      rw [real?_of_int h, Option.some.injEq] at hv
      rw [← hv]
      exact .int n
    | float x =>
      cases h
      cases hv
      exact .float x
    | bool b =>
      cases h
      cases hv
    | text s =>
      cases h
      rw [real?] at hv
      obtain ⟨negative, d, hd, rfl⟩ := (Numeral.real?_eq_some_iff hr).1 hv
      exact .text hd hr
    | _ => cases h
  · intro ht
    have hr := ht.isFinite
    cases ht with
    | int n => exact ⟨real?_of_int h, hr⟩
    | float x =>
      cases h
      exact ⟨rfl, hr⟩
    | text hd _ =>
      cases h
      rw [real?]
      exact ⟨(Numeral.real?_eq_some_iff hr).2 ⟨_, _, hd, rfl⟩, hr⟩

end ParamValue

namespace Parameters

variable {ps : Parameters} {key : String} {v : ParamValue}

theorem realOr_eq_ok (h : ps.get? key = some v) {default r : Binary64} :
    ps.realOr key default = .ok r ↔ v.real? = some r ∧ r.isFinite = true := by
  simp only [realOr, h]
  cases v.real? with
  | none => simp
  | some x =>
    by_cases hx : x.isFinite = true
    · simp only [if_pos hx, Except.ok.injEq, Option.some.injEq]
      constructor
      · rintro rfl
        exact ⟨rfl, hx⟩
      · exact fun hr => hr.1
    · simp only [if_neg hx, reduceCtorEq, Option.some.injEq, false_iff]
      rintro ⟨rfl, hr⟩
      exact hx hr

/-- A parameter that is there is never passed over for the default. -/
theorem realOr_default (h : ps.get? key = some v) (default default' : Binary64) :
    ps.realOr key default' = ps.realOr key default := by
  simp only [realOr, h]

end Parameters

namespace Protocol

/-- The schema takes any scalar as a parameter. -/
theorem takes_parameter {x : Tree} (hx : x.IsScalar) (key : String) :
    Schema.protocol.Takes x (Parameters.place key) := by
  simp [Parameters.place, Schema.protocol, Schema.record, Schema.all, Schema.identity, Schema.required, Schema.table,
    Schema.scalar, Schema.Takes, Schema.Valid, hx]

/-- What was put among the parameters is the last entry with its key. -/
theorem entries_put_parameter {document : Tree} {key : String} (hs : document.at? (Parameters.place key) ≠ none)
    (x : Tree) : ∃ entries, (document.put (Parameters.place key) x).get? "parameters" = some (.map entries) ∧
      Entries.get? key entries.reverse = some x := by
  obtain ⟨w, hw⟩ := Option.ne_none_iff_exists'.1 hs
  obtain ⟨u, hu, hw⟩ := Option.bind_eq_some_iff.1 hw
  obtain ⟨z, hz, -⟩ := Option.bind_eq_some_iff.1 hw
  cases u with
  | map entries =>
    refine ⟨Entries.modify key (fun _ => x) entries, ?_, ?_⟩
    · rw [Parameters.place, Tree.get?_put_key, hu, Option.map_some, if_pos rfl, Tree.put]
      simp only [Tree.put_nil]
    · -- the tree was put in all entries with the key, the last one among them
      obtain ⟨z', hz'⟩ := Entries.exists_get?_of_mem (List.mem_reverse.2 (Entries.mem_of_get? hz))
      rw [Entries.modify, ← List.map_reverse]
      show Entries.get? key (Entries.modify key (fun _ => x) entries.reverse) = some x
      rw [Entries.get?_modify, hz', Option.map_some, if_pos rfl]
  | _ => cases hz

/-- What was put among the parameters is stored under its key. -/
theorem ReadFrom.get?_put {p : Protocol} {document x : Tree} {key : String}
    (h : p.ReadFrom ⟨[], document.put (Parameters.place key) x⟩) (hs : document.at? (Parameters.place key) ≠ none) :
    ∃ v, ParamValue.ofTree? x = some v ∧ p.parameters.get? key = some v := by
  obtain ⟨entries, hentries, hlast⟩ := entries_put_parameter hs x
  have hstored := h.get?_parameters_reverse hentries key
  rw [hlast, Option.bind_some] at hstored
  have hscalar : x.IsScalar := by
    have hvalue : (document.put (Parameters.place key) x).value? "parameters" = some (.map entries) := by
      rw [Tree.value?, hentries]
      rfl
    have htable := Parameters.table_of_ofTree? (h.ofTree?_parameters hvalue)
    exact htable.2 _ (List.mem_reverse.1 (Entries.mem_of_get? hlast))
  obtain ⟨v, hv⟩ := ParamValue.exists_ofTree? hscalar
  exact ⟨v, hv, by rw [hstored, hv]⟩

/-- A tree is a number where the schema asks for one exactly if it can be loaded as a parameter
    and looked up there as a real, whatever the default; and it is the same finite double. -/
theorem ofDocument_real (F : RealField) (key : String) (x : Tree) (default : Binary64) {document store : Tree}
    (hF : ValidBut document F.place) (hP : ValidBut store (Parameters.place key)) :
    ((∃ p, ofDocument (document.put F.place x) = .ok p) ↔
        ∃ q r, ofDocument (store.put (Parameters.place key) x) = .ok q ∧ q.parameters.realOr key default = .ok r) ∧
      (∀ p, ofDocument (document.put F.place x) = .ok p → ∃ r, F.value? p = some r ∧ r.isFinite = true ∧
        ∀ q, ofDocument (store.put (Parameters.place key) x) = .ok q → q.parameters.realOr key default = .ok r) ∧
      ∀ q, ofDocument (store.put (Parameters.place key) x) = .ok q →
        (∀ default', q.parameters.realOr key default' = q.parameters.realOr key default) ∧
          ∀ r, q.parameters.realOr key default = .ok r → r.isFinite = true := by
  -- both routes find a number exactly where the tree holds one
  have hfield : ∀ p, ofDocument (document.put F.place x) = .ok p → ∃ r, F.value? p = some r ∧ x.HoldsReal r := by
    intro p hp
    have hread := ofDocument_ok_iff.1 hp
    have hput := Tree.at?_put x hF.stands
    exact hread.value?_at F hput
  have hparameter : ∀ q, ofDocument (store.put (Parameters.place key) x) = .ok q →
      (∀ default', q.parameters.realOr key default' = q.parameters.realOr key default) ∧
        ∀ r, q.parameters.realOr key default = .ok r ↔ x.HoldsReal r := by
    intro q hq
    have hread := ofDocument_ok_iff.1 hq
    obtain ⟨v, hv, hstored⟩ := hread.get?_put hP.stands
    refine ⟨Parameters.realOr_default hstored default, ?_⟩
    intro r
    rw [Parameters.realOr_eq_ok hstored, ParamValue.real?_eq_some_iff hv]
  have hloads : ∀ r, x.HoldsReal r → (∃ p, ofDocument (document.put F.place x) = .ok p) ∧
      ∃ q, ofDocument (store.put (Parameters.place key) x) = .ok q := by
    intro r hr
    exact ⟨hF.loads hr.isNull (takes_real hr.isReal F), hP.loads hr.isNull (takes_parameter hr.isReal.isScalar key)⟩
  refine ⟨⟨?_, ?_⟩, ?_, ?_⟩
  · rintro ⟨p, hp⟩
    obtain ⟨r, -, hr⟩ := hfield p hp
    obtain ⟨-, q, hq⟩ := hloads r hr
    exact ⟨q, r, hq, ((hparameter q hq).2 r).2 hr⟩
  · rintro ⟨q, r, hq, hr⟩
    exact (hloads r (((hparameter q hq).2 r).1 hr)).1
  · intro p hp
    obtain ⟨r, hvalue, hr⟩ := hfield p hp
    refine ⟨r, hvalue, hr.isFinite, ?_⟩
    intro q hq
    exact ((hparameter q hq).2 r).2 hr
  · intro q hq
    refine ⟨(hparameter q hq).1, ?_⟩
    intro r hr
    exact (((hparameter q hq).2 r).1 hr).isFinite

/-- The largest integer of a document. -/
def largest : Tree := .int ⟨18446744073709551615, by decide⟩

/-- In a matrix and as a parameter, 2^64 - 1 is 2^64. -/
theorem ofDocument_real_largest :
    ValidBut twoState.document (RealField.element 0 1 0 .im).place ∧
      ValidBut twoState.document (Parameters.place "gain") ∧
      ∃ p q, ofDocument (twoState.document.put (RealField.element 0 1 0 .im).place largest) = .ok p ∧
        ofDocument (twoState.document.put (Parameters.place "gain") largest) = .ok q ∧
        RealField.value? p (.element 0 1 0 .im) = some (.ofInt 18446744073709551616) ∧
        q.parameters.realOr "gain" .zero = .ok (.ofInt 18446744073709551616) := by
  have hF : ValidBut twoState.document (RealField.element 0 1 0 .im).place := validBut_twoState rfl
  have hP : ValidBut twoState.document (Parameters.place "gain") := validBut_twoState rfl
  obtain ⟨p, hp⟩ := hF.loads rfl (takes_real (x := largest) (Or.inl ⟨_, rfl⟩) (.element 0 1 0 .im))
  obtain ⟨hloads, hsame, -⟩ := ofDocument_real (.element 0 1 0 .im) "gain" largest .zero hF hP
  obtain ⟨q, -, hq, -⟩ := hloads.1 ⟨p, hp⟩
  obtain ⟨r, hvalue, -, hall⟩ := hsame p hp
  have hr : r = .ofInt 18446744073709551616 := by
    have hread := ofDocument_ok_iff.1 hp
    have hput := Tree.at?_put largest hF.stands
    obtain ⟨r', hvalue', hholds⟩ := hread.value?_at _ hput
    rw [hvalue, Option.some.injEq] at hvalue'
    subst hvalue'
    cases hholds
    decide +kernel
  exact ⟨hF, hP, p, q, hp, hq, hr ▸ hvalue, hr ▸ hall q hq⟩

end Protocol

end PhaseCert
