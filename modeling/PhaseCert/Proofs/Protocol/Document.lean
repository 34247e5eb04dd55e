/-
  PhaseCert.Proofs.Protocol.Document — a protocol laid out as a document, and read back.

  `Protocol.written` lays a protocol out by the schema of protocol documents: a section for the
  identity, the parameters as scalars, the states, the measurement and the five sections that
  have to be there, its numbers as doubles. `Protocol.document` is that tree with its entries in
  key order, as every tree that is read has them.

  `Shows` says of a place in a document that it has the entries of a record. A field of a
  record that is shown is read as what was written (`Shows.real`, `Shows.text`, `Shows.list`),
  and so each section is read as what it was laid out from. Of the whole protocol that is
  `Protocol.ofDocument_document`. A tree has no place for NaN and the infinities, and a matrix
  with ragged rows is refused, so the protocol has to be well formed.
-/
import PhaseCert.Proofs.Protocol.Validation
import PhaseCert.Proofs.Tree

namespace PhaseCert

/-! ## Well-formed protocols -/

def Amplitude.IsFinite (a : Amplitude) : Prop := a.re.isFinite = true ∧ a.im.isFinite = true

def SignalState.IsFinite (s : SignalState) : Prop := s.prior.isFinite = true ∧ ∀ a ∈ s.amplitudes, a.IsFinite

/-- The matrix has finite entries and rows of one width. -/
structure PovmElement.WellFormed (e : PovmElement) : Prop where
  finite : ∀ row ∈ e.matrix, ∀ a ∈ row, a.IsFinite
  rectangular : ∀ row ∈ e.matrix, row.length = e.shape.2

def Device.IsFinite (d : Device) : Prop :=
  d.eta.isFinite = true ∧ d.darkCount.isFinite = true ∧ d.detectorEfficiency.isFinite = true

def ErrorCorrection.IsFinite (e : ErrorCorrection) : Prop :=
  e.targetFailure.isFinite = true ∧ e.inefficiency.isFinite = true

def PrivacyAmplification.IsFinite (a : PrivacyAmplification) : Prop := a.securityParameter.isFinite = true

def Observed.IsFinite (o : Observed) : Prop :=
  o.conclusive.isFinite = true ∧ o.conclusiveErrorRate.isFinite = true ∧ o.inconclusive.isFinite = true

def ParamValue.IsFinite (v : ParamValue) : Prop := ∀ x, v = .float x → x.isFinite = true

/-- Every real number of the protocol is finite, and its matrices are rectangular. -/
structure Protocol.WellFormed (p : Protocol) : Prop where
  parameters : ∀ e ∈ p.parameters.entries, e.2.IsFinite
  states : ∀ s ∈ p.states, s.IsFinite
  povm : ∀ e ∈ p.measurement.povm, e.WellFormed
  device : p.device.IsFinite
  errorCorrection : p.postprocessing.errorCorrection.IsFinite
  privacyAmplification : p.postprocessing.privacyAmplification.IsFinite
  observed : p.observed.IsFinite
  epsilon : p.securityGoal.epsilon.isFinite = true

/-! ## The layout -/

def Amplitude.fields (a : Amplitude) : List (String × Tree) := [("re", .ofReal a.re), ("im", .ofReal a.im)]

def Amplitude.written (a : Amplitude) : Tree := .map a.fields

def rowWritten (row : List Amplitude) : Tree := .seq (row.map Amplitude.written)

def SignalState.fields (s : SignalState) : List (String × Tree) :=
  [("label", .text s.label), ("p", .ofReal s.prior), ("vec", rowWritten s.amplitudes)]

def SignalState.written (s : SignalState) : Tree := .map s.fields

def PovmElement.fields (e : PovmElement) : List (String × Tree) :=
  [("label", .text e.label), ("matrix", .seq (e.matrix.map rowWritten))]

def PovmElement.written (e : PovmElement) : Tree := .map e.fields

def Measurement.fields (m : Measurement) : List (String × Tree) :=
  [("normalize", .bool m.normalize), ("povm", .seq (m.povm.map PovmElement.written))]

def Device.fields (d : Device) : List (String × Tree) :=
  [("eta", .ofReal d.eta), ("dark_count", .ofReal d.darkCount),
    ("detector_efficiency", .ofReal d.detectorEfficiency)]

def ErrorCorrection.fields (e : ErrorCorrection) : List (String × Tree) :=
  [("scheme", .text e.scheme), ("target_ferr", .ofReal e.targetFailure), ("inefficiency_f", .ofReal e.inefficiency)]

def PrivacyAmplification.fields (a : PrivacyAmplification) : List (String × Tree) :=
  [("method", .text a.method), ("hash_family", .text a.hashFamily),
    ("security_parameter", .ofReal a.securityParameter)]

def Postprocessing.fields (p : Postprocessing) : List (String × Tree) :=
  [("sifting", .text p.sifting), ("error_correction", .map p.errorCorrection.fields),
    ("privacy_amplification", .map p.privacyAmplification.fields)]

def Observed.fields (o : Observed) : List (String × Tree) :=
  [("p_conclusive", .ofReal o.conclusive), ("error_rate_conclusive", .ofReal o.conclusiveErrorRate),
    ("p_inconclusive", .ofReal o.inconclusive)]

def SecurityGoal.fields (g : SecurityGoal) : List (String × Tree) :=
  [("output", .text g.output), ("epsilon", .ofReal g.epsilon), ("formula_hint", .text g.formulaHint)]

def Authorship.fields (a : Authorship) : List (String × Tree) :=
  [("author", .text a.author), ("email", .text a.email), ("date", .text a.date), ("notes", .text a.notes)]

namespace Protocol

def identityFields (p : Protocol) : List (String × Tree) :=
  [("name", .text p.name), ("description", .text p.description)]

/-- The sections of a document. -/
def fields (p : Protocol) : List (String × Tree) :=
  [("protocol", .map p.identityFields), ("parameters", p.parameters.toTree),
    ("states", .seq (p.states.map SignalState.written)), ("measurements", .map p.measurement.fields),
    ("device", .map p.device.fields), ("postprocessing", .map p.postprocessing.fields),
    ("observed", .map p.observed.fields), ("security_goal", .map p.securityGoal.fields),
    ("meta", .map p.authorship.fields)]

/-- A protocol as a document, section by section. -/
def written (p : Protocol) : Tree := .map p.fields

/-- The document as a tree that is read has it. -/
def document (p : Protocol) : Tree := p.written.sorted

end Protocol

theorem ParamValue.sorted_toTree (v : ParamValue) : v.toTree.sorted = v.toTree := by
  cases v with
  | float x => exact Tree.sorted_of_canonical _ (Tree.canonical_ofReal x)
  | _ => rfl

/-- A value that has a tree is what its tree is read as. -/
theorem ParamValue.ofTree?_toTree {v : ParamValue} (hv : v.IsFinite) : ofTree? v.toTree = some v := by
  cases v with
  | integer n =>
    rw [toTree, ofTree?, Whole.signed?, dif_pos (show (Whole.ofSigned n).val < _ from n.property.2)]
    rfl
  | float x =>
    rw [toTree, Tree.ofReal_of_isFinite (hv x rfl)]
    rfl
  | bool b => rfl
  | text s => rfl

/-- Parameters are laid out in key order already. -/
theorem Parameters.sorted_toTree (m : Parameters) : m.toTree.sorted = m.toTree := by
  have hgrow : KeysGrow (m.entries.map fun e => (e.1, e.2.toTree)) := List.pairwise_map.2 m.keysGrow
  have hlist := KeyMap.ofList_entries ⟨_, hgrow⟩
  rw [Parameters.toTree, Tree.sorted_map, List.map_map]
  simp only [Function.comp_def, ParamValue.sorted_toTree, hlist]

/-! ## What is shown is read -/

/-- At this place stands the mapping of these entries. -/
structure Shows (t : Located) (fields : List (String × Tree)) : Prop where
  mapping : t.tree.IsMapping
  get? {key : String} {v : Tree} : (key, v) ∈ fields → t.tree.get? key = some v.sorted

namespace Shows

open Located

variable {t : Located} {fields : List (String × Tree)} {key : String}

theorem of_sorted {fields : List (String × Tree)} (hd : KeysDiffer fields) (place : Place) :
    Shows ⟨place, (Tree.map fields).sorted⟩ fields := by
  constructor
  · exact ⟨_, Tree.sorted_map fields⟩
  · intro key v h
    rw [Tree.get?_sorted hd, Entries.get?_of_mem hd h, Option.map_some]

theorem value? (h : Shows t fields) {v : Tree} (hv : (key, v) ∈ fields) (hn : v.sorted.isNull = false) :
    t.tree.value? key = some v.sorted := by
  rw [Tree.value?, h.get? hv, Option.filter_some, if_pos (by simpa using hn)]

theorem field (h : Shows t fields) {v : Tree} (hv : (key, v) ∈ fields) (hn : v.sorted.isNull = false) :
    t.field key = .ok (t.child key v.sorted) :=
  field_ok h.mapping key (h.value? hv hn)

theorem optional (h : Shows t fields) {v : Tree} (hv : (key, v) ∈ fields) (hn : v.sorted.isNull = false) :
    t.optional key = some (t.child key v.sorted) := by
  rw [optional_eq, h.value? hv hn, Option.map_some]

theorem text (h : Shows t fields) {s : String} (hv : (key, .text s) ∈ fields) : t.textField key = .ok s := by
  rw [textField, h.field hv rfl]
  rfl

theorem real (h : Shows t fields) {x : Binary64} (hv : (key, .ofReal x) ∈ fields) (hx : x.isFinite = true) :
    t.realField key = .ok x := by
  rw [Tree.ofReal_of_isFinite hx] at hv
  rw [realField, h.field hv rfl]
  exact if_pos hx

theorem expectMapping (h : Shows t fields) : t.expectMapping = .ok () := by
  obtain ⟨place, tree⟩ := t
  obtain ⟨entries, he⟩ := h.mapping
  simp only at he
  subst he
  rfl

theorem subsection (h : Shows t fields) {inner : List (String × Tree)} (hv : (key, .map inner) ∈ fields)
    (hd : KeysDiffer inner) : ∃ s, t.subsection key = .ok s ∧ Shows s inner := by
  have hn : (Tree.map inner).sorted.isNull = false := by
    rw [Tree.sorted_map]
    rfl
  have hs : Shows (t.child key (Tree.map inner).sorted) inner := of_sorted hd _
  refine ⟨_, ?_, hs⟩
  rw [Located.subsection, h.field hv hn, Outcome.ok_bind, hs.expectMapping]
  rfl

end Shows

namespace Located

/-- A list that was written member by member is read member by member. -/
theorem list_written {α : Type} {f : Located → Reading α} {g : α → Tree} {xs : List α}
    (hf : ∀ x ∈ xs, ∀ place, f ⟨place, (g x).sorted⟩ = .ok x) (place : Place) :
    (Located.items ⟨place, (Tree.seq (xs.map g)).sorted⟩ >>= fun items => items.mapM f) = .ok xs := by
  have hitems : ∀ i, (itemsFrom place i ((xs.map g).map Tree.sorted)).mapM f = .ok xs := by
    induction xs with
    | nil => exact fun i => rfl
    | cons x xs ih =>
      intro i
      rw [List.map_cons, List.map_cons, itemsFrom, List.mapM_cons, hf x List.mem_cons_self, Outcome.ok_bind,
        ih fun x' hx' => hf x' (List.mem_cons_of_mem _ hx')]
      rfl
  rw [Tree.sorted_seq]
  exact hitems 0

/-! ## Records -/

theorem amplitude_written {a : Amplitude} (ha : a.IsFinite) (place : Place) :
    Located.amplitude ⟨place, a.written.sorted⟩ = .ok a := by
  have h : Shows ⟨place, a.written.sorted⟩ a.fields := .of_sorted (by simp [KeysDiffer, Amplitude.fields]) place
  have hre := h.real (show ("re", .ofReal a.re) ∈ a.fields by simp [Amplitude.fields]) ha.1
  have him := h.real (show ("im", .ofReal a.im) ∈ a.fields by simp [Amplitude.fields]) ha.2
  rw [realField] at hre him
  simp only [amplitude, h.expectMapping, Outcome.ok_bind, ← bind_assoc, hre, him]
  rfl

theorem row_written {row : List Amplitude} (hr : ∀ a ∈ row, a.IsFinite) (place : Place) :
    Located.row ⟨place, (rowWritten row).sorted⟩ = .ok row :=
  list_written (fun a ha => amplitude_written (hr a ha)) place

theorem signalState_written {s : SignalState} (hs : s.IsFinite) (place : Place) :
    Located.signalState ⟨place, s.written.sorted⟩ = .ok s := by
  have h : Shows ⟨place, s.written.sorted⟩ s.fields := .of_sorted (by simp [KeysDiffer, SignalState.fields]) place
  have hlabel := h.text (show ("label", .text s.label) ∈ s.fields by simp [SignalState.fields])
  have hp := h.real (show ("p", .ofReal s.prior) ∈ s.fields by simp [SignalState.fields]) hs.1
  have hvec := h.field (show ("vec", rowWritten s.amplitudes) ∈ s.fields by simp [SignalState.fields]) rfl
  have hrow := row_written hs.2 (place ++ [.key "vec"])
  rw [row] at hrow
  simp only [signalState, h.expectMapping, hlabel, hp, hvec, Outcome.ok_bind, ← bind_assoc, child, hrow]
  rfl

/-- No row is ragged where all are of one width. -/
theorem ragged?_of_rectangular {α : Type} {width : Nat} {rows : List (List α)} (h : ∀ row ∈ rows, row.length = width)
    (i : Nat) : ragged? width i rows = none := by
  induction rows generalizing i with
  | nil => rfl
  | cons row rest ih =>
    rw [List.forall_mem_cons] at h
    rw [ragged?, if_pos h.1, ih h.2]

theorem matrix_written {e : PovmElement} (he : e.WellFormed) (place : Place) :
    Located.matrix ⟨place, (Tree.seq (e.matrix.map rowWritten)).sorted⟩ = .ok e.matrix := by
  have hrows := list_written (fun row hrow => row_written (he.finite row hrow)) place
  have hwidth := he.rectangular
  rw [PovmElement.shape] at hwidth
  rw [matrix, ← bind_assoc, hrows, Outcome.ok_bind]
  generalize e.matrix = rows at hwidth
  cases rows with
  | nil => rfl
  | cons first rest =>
    have hnone : ragged? first.length 0 (first :: rest) = none := ragged?_of_rectangular hwidth 0
    simp only [hnone]
    rfl

theorem povmElement_written {e : PovmElement} (he : e.WellFormed) (place : Place) :
    Located.povmElement ⟨place, e.written.sorted⟩ = .ok e := by
  have h : Shows ⟨place, e.written.sorted⟩ e.fields := .of_sorted (by simp [KeysDiffer, PovmElement.fields]) place
  have hlabel := h.text (show ("label", .text e.label) ∈ e.fields by simp [PovmElement.fields])
  have hmatrix := h.field (show ("matrix", .seq (e.matrix.map rowWritten)) ∈ e.fields by simp [PovmElement.fields]) rfl
  simp only [povmElement, h.expectMapping, hlabel, hmatrix, Outcome.ok_bind, child, matrix_written he]
  rfl

theorem parameter_written {v : ParamValue} (hv : v.IsFinite) (place : Place) :
    Located.parameter ⟨place, v.toTree⟩ = .ok v := by
  rw [parameter]
  simp only [ParamValue.ofTree?_toTree hv]

/-! ## Sections -/

section

variable {t : Located} {fields : List (String × Tree)} (h : Shows t fields)

include h

theorem identity_shown {p : Protocol} (hv : ("protocol", .map p.identityFields) ∈ fields) :
    t.identity = .ok (p.name, p.description) := by
  have hd : KeysDiffer p.identityFields := by simp [KeysDiffer, Protocol.identityFields]
  have hs : Shows (t.child "protocol" (Tree.map p.identityFields).sorted) p.identityFields := .of_sorted hd _
  have hname := hs.text (show ("name", .text p.name) ∈ p.identityFields by simp [Protocol.identityFields])
  have hdescription := hs.optional
    (show ("description", .text p.description) ∈ p.identityFields by simp [Protocol.identityFields]) rfl
  simp only [identity, h.optional hv rfl, hs.expectMapping, hname, optionalText, hdescription, Outcome.ok_bind]
  rfl

theorem parameters_shown {m : Parameters} (hm : ∀ e ∈ m.entries, e.2.IsFinite)
    (hv : ("parameters", m.toTree) ∈ fields) : t.parameters = .ok m := by
  rw [Located.parameters, h.optional hv (by rw [Parameters.sorted_toTree]; rfl), Parameters.sorted_toTree]
  have hread : ∀ entries : List (String × ParamValue), (∀ e ∈ entries, e.2.IsFinite) →
      (entries.map fun e => (e.1, e.2.toTree)).mapM (fun e => do
        let v ← ((t.child "parameters" m.toTree).child e.1 e.2).parameter
        return (e.1, v)) = .ok entries := by
    intro entries he
    induction entries with
    | nil => rfl
    | cons e rest ih =>
      rw [List.forall_mem_cons] at he
      rw [List.map_cons, List.mapM_cons, ih he.2, child, parameter_written he.1]
      rfl
  have hentries : (t.child "parameters" m.toTree).entries = .ok (m.entries.map fun e => (e.1, e.2.toTree)) := rfl
  simp only [hentries, hread m.entries hm, Outcome.ok_bind]
  rw [KeyMap.ofList_entries]
  rfl

theorem states_shown {states : List SignalState} (hs : ∀ s ∈ states, s.IsFinite)
    (hv : ("states", .seq (states.map SignalState.written)) ∈ fields) : t.states = .ok states := by
  simp only [Located.states, h.optional hv rfl]
  exact list_written (fun s hs' => signalState_written (hs s hs')) _

theorem measurement_shown {m : Measurement} (hm : ∀ e ∈ m.povm, e.WellFormed)
    (hv : ("measurements", .map m.fields) ∈ fields) : t.measurement = .ok m := by
  have hd : KeysDiffer m.fields := by simp [KeysDiffer, Measurement.fields]
  have hs : Shows (t.child "measurements" (Tree.map m.fields).sorted) m.fields := .of_sorted hd _
  have hnormalize := hs.optional (show ("normalize", .bool m.normalize) ∈ m.fields by simp [Measurement.fields]) rfl
  have hpovm := hs.optional
    (show ("povm", .seq (m.povm.map PovmElement.written)) ∈ m.fields by simp [Measurement.fields]) rfl
  have hlist := list_written (fun e he => povmElement_written (hm e he))
    ((t.place ++ [.key "measurements"]) ++ [.key "povm"])
  have hflag : flag ((t.child "measurements" (Tree.map m.fields).sorted).child "normalize"
      (Tree.bool m.normalize).sorted) = .ok m.normalize := rfl
  simp only [measurement, h.optional hv rfl, hs.expectMapping, hnormalize, hpovm, hflag, Outcome.ok_bind]
  simp only [child, ← bind_assoc, hlist]
  rfl

theorem device_shown {d : Device} (hd : d.IsFinite) (hv : ("device", .map d.fields) ∈ fields) : t.device = .ok d := by
  obtain ⟨s, hs, h⟩ := h.subsection hv (by simp [KeysDiffer, Device.fields])
  have h1 := h.real (show ("eta", .ofReal d.eta) ∈ d.fields by simp [Device.fields]) hd.1
  have h2 := h.real (show ("dark_count", .ofReal d.darkCount) ∈ d.fields by simp [Device.fields]) hd.2.1
  have h3 := h.real (show ("detector_efficiency", .ofReal d.detectorEfficiency) ∈ d.fields by simp [Device.fields]) hd.2.2
  simp only [device, hs, h1, h2, h3, Outcome.ok_bind]
  rfl

theorem errorCorrection_shown {e : ErrorCorrection} (he : e.IsFinite)
    (hv : ("error_correction", .map e.fields) ∈ fields) : t.errorCorrection = .ok e := by
  obtain ⟨s, hs, h⟩ := h.subsection hv (by simp [KeysDiffer, ErrorCorrection.fields])
  have h1 := h.text (show ("scheme", .text e.scheme) ∈ e.fields by simp [ErrorCorrection.fields])
  have h2 := h.real (show ("target_ferr", .ofReal e.targetFailure) ∈ e.fields by simp [ErrorCorrection.fields]) he.1
  have h3 := h.real (show ("inefficiency_f", .ofReal e.inefficiency) ∈ e.fields by simp [ErrorCorrection.fields]) he.2
  simp only [errorCorrection, hs, h1, h2, h3, Outcome.ok_bind]
  rfl

theorem privacyAmplification_shown {a : PrivacyAmplification} (ha : a.IsFinite)
    (hv : ("privacy_amplification", .map a.fields) ∈ fields) : t.privacyAmplification = .ok a := by
  obtain ⟨s, hs, h⟩ := h.subsection hv (by simp [KeysDiffer, PrivacyAmplification.fields])
  have h1 := h.text (show ("method", .text a.method) ∈ a.fields by simp [PrivacyAmplification.fields])
  have h2 := h.text (show ("hash_family", .text a.hashFamily) ∈ a.fields by simp [PrivacyAmplification.fields])
  have h3 := h.real
    (show ("security_parameter", .ofReal a.securityParameter) ∈ a.fields by simp [PrivacyAmplification.fields]) ha
  simp only [privacyAmplification, hs, h1, h2, h3, Outcome.ok_bind]
  rfl

theorem postprocessing_shown {p : Postprocessing} (he : p.errorCorrection.IsFinite)
    (ha : p.privacyAmplification.IsFinite) (hv : ("postprocessing", .map p.fields) ∈ fields) :
    t.postprocessing = .ok p := by
  obtain ⟨s, hs, h⟩ := h.subsection hv (by simp [KeysDiffer, Postprocessing.fields])
  have h1 := errorCorrection_shown h he (by simp [Postprocessing.fields])
  have h2 := privacyAmplification_shown h ha (by simp [Postprocessing.fields])
  have h3 := h.text (show ("sifting", .text p.sifting) ∈ p.fields by simp [Postprocessing.fields])
  simp only [postprocessing, hs, h1, h2, h3, Outcome.ok_bind]
  rfl

theorem observed_shown {o : Observed} (ho : o.IsFinite) (hv : ("observed", .map o.fields) ∈ fields) :
    t.observed = .ok o := by
  obtain ⟨s, hs, h⟩ := h.subsection hv (by simp [KeysDiffer, Observed.fields])
  have h1 := h.real (show ("p_conclusive", .ofReal o.conclusive) ∈ o.fields by simp [Observed.fields]) ho.1
  have h2 := h.real
    (show ("error_rate_conclusive", .ofReal o.conclusiveErrorRate) ∈ o.fields by simp [Observed.fields]) ho.2.1
  have h3 := h.real (show ("p_inconclusive", .ofReal o.inconclusive) ∈ o.fields by simp [Observed.fields]) ho.2.2
  simp only [observed, hs, h1, h2, h3, Outcome.ok_bind]
  rfl

theorem securityGoal_shown {g : SecurityGoal} (hg : g.epsilon.isFinite = true)
    (hv : ("security_goal", .map g.fields) ∈ fields) : t.securityGoal = .ok g := by
  obtain ⟨s, hs, h⟩ := h.subsection hv (by simp [KeysDiffer, SecurityGoal.fields])
  have h1 := h.text (show ("output", .text g.output) ∈ g.fields by simp [SecurityGoal.fields])
  have h2 := h.real (show ("epsilon", .ofReal g.epsilon) ∈ g.fields by simp [SecurityGoal.fields]) hg
  have h3 := h.text (show ("formula_hint", .text g.formulaHint) ∈ g.fields by simp [SecurityGoal.fields])
  simp only [securityGoal, hs, h1, h2, h3, Outcome.ok_bind]
  rfl

theorem authorship_shown {a : Authorship} (hv : ("meta", .map a.fields) ∈ fields) : t.authorship = .ok a := by
  obtain ⟨s, hs, h⟩ := h.subsection hv (by simp [KeysDiffer, Authorship.fields])
  have h1 := h.text (show ("author", .text a.author) ∈ a.fields by simp [Authorship.fields])
  have h2 := h.text (show ("email", .text a.email) ∈ a.fields by simp [Authorship.fields])
  have h3 := h.text (show ("date", .text a.date) ∈ a.fields by simp [Authorship.fields])
  have h4 := h.text (show ("notes", .text a.notes) ∈ a.fields by simp [Authorship.fields])
  simp only [authorship, hs, h1, h2, h3, h4, Outcome.ok_bind]
  rfl

end

end Located

/-! ## Whole protocols -/

namespace Protocol

theorem shows_document (p : Protocol) : Shows ⟨[], p.document⟩ p.fields :=
  .of_sorted (by simp [KeysDiffer, fields]) []

/-- Each section of a document is read as what it was laid out from. -/
theorem ofTree_document {p : Protocol} (hp : p.WellFormed) : ofTree p.document = .ok p := by
  have h := p.shows_document
  have hidentity := Located.identity_shown h (p := p) (by simp [fields])
  have hparameters := Located.parameters_shown h hp.parameters (by simp [fields])
  have hstates := Located.states_shown h hp.states (by simp [fields])
  have hmeasurement := Located.measurement_shown h hp.povm (by simp [fields])
  have hdevice := Located.device_shown h hp.device (by simp [fields])
  have hpostprocessing := Located.postprocessing_shown h hp.errorCorrection hp.privacyAmplification (by simp [fields])
  have hobserved := Located.observed_shown h hp.observed (by simp [fields])
  have hgoal := Located.securityGoal_shown h hp.epsilon (by simp [fields])
  have hauthorship := Located.authorship_shown h (a := p.authorship) (by simp [fields])
  simp only [ofTree, h.expectMapping, hidentity, hparameters, hstates, hmeasurement, hdevice, hpostprocessing, hobserved,
    hgoal, hauthorship, Outcome.ok_bind]
  rfl

/-- Laid out as a document and read back, a well-formed protocol is the same protocol. -/
theorem ofDocument_document (p : Protocol) (hp : p.WellFormed) :
    p.document.Canonical ∧ ofDocument p.document = .ok p :=
  ⟨Tree.canonical_sorted p.written, Outcome.mapError_eq_ok.2 (ofTree_document hp)⟩

/-- Two states, an integer and a float that are equal as numbers, a matrix with a row and one without. -/
def twoState : Protocol where
  name := "two-state"
  description := ""
  parameters := .ofList [("rounds", .integer ⟨1, by decide⟩), ("gain", .float .one), ("mode", .text "1")]
  states := [⟨"0", .half, [⟨.one, .zero⟩, ⟨.zero, .finite true ⟨0, by decide⟩⟩]⟩, ⟨"1", .half, []⟩]
  measurement := ⟨false, [⟨"conclusive", [[⟨.half, .zero⟩], [⟨.zero, .one⟩]]⟩, ⟨"none", []⟩]⟩
  device := ⟨.one, .zero, .half⟩
  postprocessing := ⟨"public", ⟨"cascade", .zero, .one⟩, ⟨"hashing", "toeplitz", .half⟩⟩
  observed := ⟨.half, .zero, .half⟩
  securityGoal := ⟨"key", .half, ""⟩
  authorship := ⟨"", "", "", ""⟩

theorem twoState_wellFormed : twoState.WellFormed where
  parameters := by
    intro e he
    have he := KeyMap.mem_of_mem_ofList he
    intro x hx
    simp only [List.mem_cons, List.not_mem_nil, or_false] at he
    rcases he with rfl | rfl | rfl <;> cases hx
    decide
  states := by simp only [twoState, SignalState.IsFinite, Amplitude.IsFinite]; decide
  povm := by
    intro e he
    simp only [twoState, List.mem_cons, List.not_mem_nil, or_false] at he
    rcases he with rfl | rfl
    · exact ⟨by simp only [Amplitude.IsFinite]; decide, by decide⟩
    · exact ⟨by simp, by simp⟩
  device := ⟨rfl, rfl, rfl⟩
  errorCorrection := ⟨rfl, rfl⟩
  privacyAmplification := rfl
  observed := ⟨rfl, rfl, rfl⟩
  epsilon := rfl

theorem ofDocument_document_twoState : twoState.document.Canonical ∧ ofDocument twoState.document = .ok twoState :=
  ofDocument_document twoState twoState_wellFormed

end Protocol

end PhaseCert
