/-
  PhaseCert.Proofs.Protocol.Texts — a protocol written in either notation, and loaded again.

  Where the texts of a protocol need no escapes (`Protocol.Clean`), the document it is laid out as
  can be written on lines (`Protocol.written_printable`). Both notations read what was written as
  that document (`Protocol.read?_yaml`, `Protocol.read?_toml`), and the document is read as the
  protocol: `Protocol.ofText_written`.
-/
import PhaseCert.Loading
import PhaseCert.Proofs.Protocol.Document
import PhaseCert.Proofs.Toml.Flow
import PhaseCert.Proofs.Yaml.Reader

namespace PhaseCert

/-! ## Printable protocols -/

def ParamValue.Clean (v : ParamValue) : Prop := ∀ s, v = .text s → PhaseCert.Clean s

structure Postprocessing.Clean (p : Postprocessing) : Prop where
  sifting : PhaseCert.Clean p.sifting
  scheme : PhaseCert.Clean p.errorCorrection.scheme
  method : PhaseCert.Clean p.privacyAmplification.method
  hashFamily : PhaseCert.Clean p.privacyAmplification.hashFamily

structure Authorship.Clean (a : Authorship) : Prop where
  author : PhaseCert.Clean a.author
  email : PhaseCert.Clean a.email
  date : PhaseCert.Clean a.date
  notes : PhaseCert.Clean a.notes

/-- Every text of the protocol is of characters that need no escape, and no parameter's key is too long. -/
structure Protocol.Clean (p : Protocol) : Prop where
  name : PhaseCert.Clean p.name
  description : PhaseCert.Clean p.description
  keys : ∀ e ∈ p.parameters.entries, CleanKey e.1
  parameters : ∀ e ∈ p.parameters.entries, e.2.Clean
  states : ∀ s ∈ p.states, PhaseCert.Clean s.label
  povm : ∀ e ∈ p.measurement.povm, PhaseCert.Clean e.label
  postprocessing : p.postprocessing.Clean
  output : PhaseCert.Clean p.securityGoal.output
  formulaHint : PhaseCert.Clean p.securityGoal.formulaHint
  authorship : p.authorship.Clean

/-! ## Printable sections -/

namespace Tree.Printable

variable {d : Nat}

theorem ofReal {x : Binary64} (hx : x.isFinite = true) : (Tree.ofReal x).Printable d := by
  rw [Tree.ofReal_of_isFinite hx]
  exact .float _

/-- A record is printable when its values are. -/
theorem record {fields : List (String × Tree)} (hd : KeysDiffer fields)
    (h : ∀ e ∈ fields, CleanKey e.1 ∧ e.2.Printable d) :
    (Tree.map fields).Printable (d + 1) :=
  .map hd (fun e he => (h e he).1) fun e he => (h e he).2

theorem list {α : Type} {g : α → Tree} {xs : List α} (h : ∀ x ∈ xs, (g x).Printable d) :
    (Tree.seq (xs.map g)).Printable (d + 1) :=
  .seq (List.forall_mem_map.2 h)

end Tree.Printable

theorem Amplitude.printable {a : Amplitude} (ha : a.IsFinite) {d : Nat} : a.written.Printable (d + 1) := by
  refine .record (by simp [KeysDiffer, Amplitude.fields]) ?_
  simp only [Amplitude.fields, List.forall_mem_cons]
  exact ⟨⟨by decide, .ofReal ha.1⟩, ⟨by decide, .ofReal ha.2⟩, List.forall_mem_nil _⟩

theorem rowWritten_printable {row : List Amplitude} (hr : ∀ a ∈ row, a.IsFinite) {d : Nat} :
    (rowWritten row).Printable (d + 2) :=
  .list fun a ha => Amplitude.printable (hr a ha)

theorem SignalState.printable {s : SignalState} (hs : s.IsFinite) (hl : Clean s.label) {d : Nat} :
    s.written.Printable (d + 3) := by
  refine .record (by simp [KeysDiffer, SignalState.fields]) ?_
  simp only [SignalState.fields, List.forall_mem_cons]
  exact ⟨⟨by decide, .text hl⟩, ⟨by decide, .ofReal hs.1⟩, ⟨by decide, rowWritten_printable hs.2⟩, List.forall_mem_nil _⟩

theorem PovmElement.printable {e : PovmElement} (he : e.WellFormed) (hl : Clean e.label) {d : Nat} :
    e.written.Printable (d + 5) := by
  refine .record (by simp [KeysDiffer, PovmElement.fields]) ?_
  simp only [PovmElement.fields, List.forall_mem_cons]
  exact ⟨⟨by decide, .text hl⟩, ⟨by decide, .list fun row hrow => rowWritten_printable (he.finite row hrow)⟩,
    List.forall_mem_nil _⟩

theorem Measurement.printable {m : Measurement} (he : ∀ e ∈ m.povm, e.WellFormed) (hl : ∀ e ∈ m.povm, Clean e.label)
    {d : Nat} : (Tree.map m.fields).Printable (d + 7) := by
  refine .record (by simp [KeysDiffer, Measurement.fields]) ?_
  simp only [Measurement.fields, List.forall_mem_cons]
  have hpovm : (Tree.seq (m.povm.map PovmElement.written)).Printable (d + 6) :=
    .list fun e h => PovmElement.printable (he e h) (hl e h)
  exact ⟨⟨by decide, .bool _⟩, ⟨by decide, hpovm⟩, List.forall_mem_nil _⟩

theorem ParamValue.printable {v : ParamValue} (hf : v.IsFinite) (hc : v.Clean) {d : Nat} : v.toTree.Printable d := by
  cases v with
  | integer n => exact .int n.property.2
  | float x => exact .ofReal (hf x rfl)
  | bool b => exact .bool b
  | text s => exact .text (hc s rfl)

theorem Parameters.printable {m : Parameters} (hk : ∀ e ∈ m.entries, CleanKey e.1) (hf : ∀ e ∈ m.entries, e.2.IsFinite)
    (hc : ∀ e ∈ m.entries, e.2.Clean) {d : Nat} : m.toTree.Printable (d + 1) := by
  refine .record (m.keysGrow.keysDiffer.map ParamValue.toTree) (List.forall_mem_map.2 fun e he => ?_)
  exact ⟨hk e he, ParamValue.printable (hf e he) (hc e he)⟩

theorem Device.printable {v : Device} (h : v.IsFinite) {d : Nat} : (Tree.map v.fields).Printable (d + 1) := by
  refine .record (by simp [KeysDiffer, Device.fields]) ?_
  simp only [Device.fields, List.forall_mem_cons]
  exact ⟨⟨by decide, .ofReal h.1⟩, ⟨by decide, .ofReal h.2.1⟩, ⟨by decide, .ofReal h.2.2⟩, List.forall_mem_nil _⟩

theorem Postprocessing.printable {p : Postprocessing} (he : p.errorCorrection.IsFinite)
    (ha : p.privacyAmplification.IsFinite) (hc : p.Clean) {d : Nat} : (Tree.map p.fields).Printable (d + 2) := by
  have hcorrection : (Tree.map p.errorCorrection.fields).Printable (d + 1) := by
    refine .record (by simp [KeysDiffer, ErrorCorrection.fields]) ?_
    simp only [ErrorCorrection.fields, List.forall_mem_cons]
    exact ⟨⟨by decide, .text hc.scheme⟩, ⟨by decide, .ofReal he.1⟩, ⟨by decide, .ofReal he.2⟩, List.forall_mem_nil _⟩
  have hamplification : (Tree.map p.privacyAmplification.fields).Printable (d + 1) := by
    refine .record (by simp [KeysDiffer, PrivacyAmplification.fields]) ?_
    simp only [PrivacyAmplification.fields, List.forall_mem_cons]
    exact ⟨⟨by decide, .text hc.method⟩, ⟨by decide, .text hc.hashFamily⟩, ⟨by decide, .ofReal ha⟩, List.forall_mem_nil _⟩
  refine .record (by simp [KeysDiffer, Postprocessing.fields]) ?_
  simp only [Postprocessing.fields, List.forall_mem_cons]
  exact ⟨⟨by decide, .text hc.sifting⟩, ⟨by decide, hcorrection⟩, ⟨by decide, hamplification⟩, List.forall_mem_nil _⟩

theorem Observed.printable {o : Observed} (h : o.IsFinite) {d : Nat} : (Tree.map o.fields).Printable (d + 1) := by
  refine .record (by simp [KeysDiffer, Observed.fields]) ?_
  simp only [Observed.fields, List.forall_mem_cons]
  exact ⟨⟨by decide, .ofReal h.1⟩, ⟨by decide, .ofReal h.2.1⟩, ⟨by decide, .ofReal h.2.2⟩, List.forall_mem_nil _⟩

theorem SecurityGoal.printable {g : SecurityGoal} (he : g.epsilon.isFinite = true) (ho : Clean g.output)
    (hf : Clean g.formulaHint) {d : Nat} : (Tree.map g.fields).Printable (d + 1) := by
  refine .record (by simp [KeysDiffer, SecurityGoal.fields]) ?_
  simp only [SecurityGoal.fields, List.forall_mem_cons]
  exact ⟨⟨by decide, .text ho⟩, ⟨by decide, .ofReal he⟩, ⟨by decide, .text hf⟩, List.forall_mem_nil _⟩

theorem Authorship.printable {a : Authorship} (h : a.Clean) {d : Nat} : (Tree.map a.fields).Printable (d + 1) := by
  refine .record (by simp [KeysDiffer, Authorship.fields]) ?_
  simp only [Authorship.fields, List.forall_mem_cons]
  exact ⟨⟨by decide, .text h.author⟩, ⟨by decide, .text h.email⟩, ⟨by decide, .text h.date⟩, ⟨by decide, .text h.notes⟩,
    List.forall_mem_nil _⟩

namespace Protocol

/-- The amplitudes of a measurement have seven collections around them. -/
theorem written_printable {p : Protocol} (hp : p.WellFormed) (hc : p.Clean) : p.written.Printable 8 := by
  have hidentity : (Tree.map p.identityFields).Printable 7 := by
    refine .record (by simp [KeysDiffer, identityFields]) ?_
    simp only [identityFields, List.forall_mem_cons]
    exact ⟨⟨by decide, .text hc.name⟩, ⟨by decide, .text hc.description⟩, List.forall_mem_nil _⟩
  have hstates : (Tree.seq (p.states.map SignalState.written)).Printable 7 :=
    .list fun s hs => SignalState.printable (hp.states s hs) (hc.states s hs)
  refine .record (by simp [KeysDiffer, fields]) ?_
  simp only [fields, List.forall_mem_cons]
  exact ⟨⟨by decide, hidentity⟩,
    ⟨by decide, Parameters.printable hc.keys hp.parameters hc.parameters⟩,
    ⟨by decide, hstates⟩,
    ⟨by decide, Measurement.printable hp.povm hc.povm⟩,
    ⟨by decide, Device.printable hp.device⟩,
    ⟨by decide, Postprocessing.printable hp.errorCorrection hp.privacyAmplification hc.postprocessing⟩,
    ⟨by decide, Observed.printable hp.observed⟩,
    ⟨by decide, SecurityGoal.printable hp.epsilon hc.output hc.formulaHint⟩,
    ⟨by decide, Authorship.printable hc.authorship⟩, List.forall_mem_nil _⟩

/-! ## Texts -/

/-- The document is what a text with it is read as. -/
theorem ofText_of_read? {format : DocumentFormat} {source : String} {p : Protocol} (hp : p.WellFormed)
    (h : format.read? source = some p.document) : ofText format source = .ok p := by
  have hparse : parseTree format source = .ok p.document := by
    rw [parseTree, h]
  rw [ofText, hparse, Outcome.ok_bind]
  exact Outcome.mapError_eq_ok.2 (ofTree_document hp)

theorem read?_yaml {p : Protocol} (hp : p.WellFormed) (hc : p.Clean) {style : FlowStyle} (hmark : style.mark = ':')
    (hbefore : style.before ≤ 22) {ending : List Char} (hending : ending ∈ [[], ['\n']]) :
    Yaml.read? (String.ofList (p.written.flow style ++ ending)) = some p.document :=
  Yaml.read?_mapping hmark hbefore ((written_printable hp hc).mono (by decide)) hending

theorem read?_toml {p : Protocol} (hp : p.WellFormed) (hc : p.Clean) {style : FlowStyle} (hmark : style.mark = '=') :
    Toml.read? (String.ofList (Toml.document style p.fields)) = some p.document :=
  Toml.read?_document hmark ((written_printable hp hc).mono (by decide))

/-- A protocol written as a YAML flow mapping on one line, with at most so many blanks before its colons
    that the longest keys are still keys, and as a TOML document of a line for each section, is loaded
    from both texts as it was. -/
theorem ofText_written (p : Protocol) (hp : p.WellFormed) (hc : p.Clean) (yaml toml : FlowStyle) (hyaml : yaml.mark = ':')
    (hbefore : yaml.before ≤ 22) (htoml : toml.mark = '=') (ending : List Char) (hending : ending ∈ [[], ['\n']]) :
    ofText .yaml (String.ofList (p.written.flow yaml ++ ending)) = .ok p ∧
      ofText .toml (String.ofList (Toml.document toml p.fields)) = .ok p :=
  ⟨ofText_of_read? hp (read?_yaml hp hc hyaml hbefore hending), ofText_of_read? hp (read?_toml hp hc htoml)⟩

theorem twoState_clean : twoState.Clean where
  name := by decide
  description := by decide
  keys := by
    intro e he
    have he := KeyMap.mem_of_mem_ofList he
    revert e
    decide
  parameters := by
    intro e he s hs
    have he := KeyMap.mem_of_mem_ofList he
    simp only [List.mem_cons, List.not_mem_nil, or_false] at he
    rcases he with rfl | rfl | rfl <;> cases hs
    decide
  states := by decide
  povm := by decide
  postprocessing := ⟨by decide, by decide, by decide, by decide⟩
  output := by decide
  formulaHint := by decide
  authorship := ⟨by decide, by decide, by decide, by decide⟩

theorem ofText_written_twoState :
    ofText .yaml (String.ofList (twoState.written.flow ⟨':', 0, 1, 1, 0⟩ ++ ['\n'])) = .ok twoState ∧
      ofText .toml (String.ofList (Toml.document ⟨'=', 1, 1, 1, 1⟩ twoState.fields)) = .ok twoState :=
  ofText_written twoState twoState_wellFormed twoState_clean ⟨':', 0, 1, 1, 0⟩ ⟨'=', 1, 1, 1, 1⟩ rfl (by decide) rfl
    ['\n'] (by decide)

end Protocol

end PhaseCert
