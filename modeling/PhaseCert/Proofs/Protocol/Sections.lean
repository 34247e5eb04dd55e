/-
  PhaseCert.Proofs.Protocol.Sections — a protocol, section by section.

  A document describes a protocol exactly if each of its sections is read as that part of the
  protocol (`ofDocument_ok_iff`). What is known of a section's reading is so known of every
  protocol that was read: a parameter is the scalar under its key (`get?_parameters`), and the
  security parameter is a finite number (`epsilon_isFinite`).
-/
import PhaseCert.Proofs.KeyMap
import PhaseCert.Proofs.Protocol.Validation

namespace PhaseCert

open Located

/-- Each section of the document is read as that part of the protocol. -/
structure Protocol.ReadFrom (p : Protocol) (root : Located) : Prop where
  mapping : root.tree.IsMapping
  identity : root.identity = .ok (p.name, p.description)
  parameters : root.parameters = .ok p.parameters
  states : root.states = .ok p.states
  measurement : root.measurement = .ok p.measurement
  device : root.device = .ok p.device
  postprocessing : root.postprocessing = .ok p.postprocessing
  observed : root.observed = .ok p.observed
  securityGoal : root.securityGoal = .ok p.securityGoal
  authorship : root.authorship = .ok p.authorship

namespace Located

theorem expectMapping_eq_ok {t : Located} : t.expectMapping = .ok () ↔ t.tree.IsMapping := by
  constructor
  · intro h
    exact isMapping_of_expectMapping h
  · rintro ⟨entries, h⟩
    simp only [expectMapping, Located.entries, h]
    rfl

/-! ## Numbers -/

theorem real_isFinite {t : Located} {x : Binary64} (h : t.real = .ok x) : x.isFinite = true := by
  have hfinite : ∀ {y : Binary64}, (if y.isFinite then (.ok y : Reading Binary64)
      else t.fault (.expected .finiteNumber (.real y))) = .ok x → x.isFinite = true := by
    intro y hy
    split at hy
    · rename_i hf
      rw [Except.ok.injEq] at hy
      rwa [← hy]
    · cases hy
  unfold real at h
  split at h
  · exact hfinite h
  · exact hfinite h
  · split at h
    · exact hfinite h
    · cases h
  · cases h

theorem realField_isFinite {t : Located} {key : String} {x : Binary64} (h : t.realField key = .ok x) :
    x.isFinite = true := by
  obtain ⟨v, -, hx⟩ := Outcome.bind_eq_ok.1 h
  exact real_isFinite hx

theorem securityGoal_isFinite {t : Located} {g : SecurityGoal} (h : t.securityGoal = .ok g) :
    g.epsilon.isFinite = true := by
  obtain ⟨s, -, h⟩ := Outcome.bind_eq_ok.1 h
  obtain ⟨output, -, h⟩ := Outcome.bind_eq_ok.1 h
  obtain ⟨epsilon, he, h⟩ := Outcome.bind_eq_ok.1 h
  obtain ⟨hint, -, h⟩ := Outcome.bind_eq_ok.1 h
  rw [Outcome.pure_eq_ok] at h
  rw [← h]
  exact realField_isFinite he

/-! ## Parameters -/

theorem parameter_eq_ok {t : Located} {v : ParamValue} : t.parameter = .ok v ↔ ParamValue.ofTree? t.tree = some v := by
  unfold parameter
  cases ParamValue.ofTree? t.tree with
  | none => simp [fault]
  | some w => simp

/-- Entries that are all read as parameters have under each key what the value there is read as. -/
theorem get?_of_mapM {t : Located} {entries : List (String × Tree)} {values : List (String × ParamValue)}
    (h : entries.mapM (fun e => do
      let v ← (t.child e.1 e.2).parameter
      return (e.1, v)) = .ok values) (key : String) :
    Entries.get? key values = (Entries.get? key entries).bind ParamValue.ofTree? := by
  induction entries generalizing values with
  | nil =>
    rw [List.mapM_nil, Outcome.pure_eq_ok] at h
    subst h
    rfl
  | cons e entries ih =>
    obtain ⟨k, tree⟩ := e
    rw [List.mapM_cons] at h
    obtain ⟨kv, hkv, h⟩ := Outcome.bind_eq_ok.1 h
    obtain ⟨rest, hrest, h⟩ := Outcome.bind_eq_ok.1 h
    obtain ⟨v, hv, hkv⟩ := Outcome.bind_eq_ok.1 hkv
    rw [Outcome.pure_eq_ok] at h hkv
    subst h hkv
    have hv : ParamValue.ofTree? tree = some v := parameter_eq_ok.1 hv
    simp only [Entries.get?]
    split
    · rw [Option.bind_some, hv]
    · exact ih hrest

end Located

/-! ## Whole protocols -/

namespace Protocol

theorem ofTree_ok_iff {document : Tree} {p : Protocol} : ofTree document = .ok p ↔ p.ReadFrom ⟨[], document⟩ := by
  constructor
  · intro h
    obtain ⟨u, hmapping, h⟩ := Outcome.bind_eq_ok.1 h
    obtain ⟨⟨name, description⟩, hidentity, h⟩ := Outcome.bind_eq_ok.1 h
    obtain ⟨parameters, hparameters, h⟩ := Outcome.bind_eq_ok.1 h
    obtain ⟨states, hstates, h⟩ := Outcome.bind_eq_ok.1 h
    obtain ⟨measurement, hmeasurement, h⟩ := Outcome.bind_eq_ok.1 h
    obtain ⟨device, hdevice, h⟩ := Outcome.bind_eq_ok.1 h
    obtain ⟨postprocessing, hpostprocessing, h⟩ := Outcome.bind_eq_ok.1 h
    obtain ⟨observed, hobserved, h⟩ := Outcome.bind_eq_ok.1 h
    obtain ⟨goal, hgoal, h⟩ := Outcome.bind_eq_ok.1 h
    obtain ⟨authorship, hauthorship, h⟩ := Outcome.bind_eq_ok.1 h
    rw [Outcome.pure_eq_ok] at h
    subst h
    exact ⟨isMapping_of_expectMapping hmapping, hidentity, hparameters, hstates, hmeasurement, hdevice, hpostprocessing,
      hobserved, hgoal, hauthorship⟩
  · intro h
    simp only [ofTree, expectMapping_eq_ok.2 h.mapping, h.identity, h.parameters, h.states, h.measurement, h.device,
      h.postprocessing, h.observed, h.securityGoal, h.authorship, Outcome.ok_bind]
    rfl

/-- A document describes a protocol exactly if its sections are read as the protocol's. -/
theorem ofDocument_ok_iff {document : Tree} {p : Protocol} :
    ofDocument document = .ok p ↔ p.ReadFrom ⟨[], document⟩ :=
  Outcome.mapError_eq_ok.trans ofTree_ok_iff

namespace ReadFrom

variable {p : Protocol} {root : Located} (h : p.ReadFrom root)

include h

theorem epsilon_isFinite : p.securityGoal.epsilon.isFinite = true := securityGoal_isFinite h.securityGoal

/-- A parameter is what the last scalar under its key is read as. -/
theorem get?_parameters_reverse {entries : List (String × Tree)}
    (he : root.tree.get? "parameters" = some (.map entries)) (key : String) :
    p.parameters.get? key = (Entries.get? key entries.reverse).bind ParamValue.ofTree? := by
  have hs : root.optional "parameters" = some (root.child "parameters" (.map entries)) := by
    simp only [Located.optional, he, Tree.isNull, Bool.false_eq_true, if_false]
  have hread := h.parameters
  simp only [Located.parameters, hs] at hread
  obtain ⟨es, hes, hread⟩ := Outcome.bind_eq_ok.1 hread
  obtain ⟨values, hvalues, hread⟩ := Outcome.bind_eq_ok.1 hread
  rw [Outcome.pure_eq_ok] at hread
  rw [entries_ok hes] at hvalues
  rw [← hread, KeyMap.get?_ofList]
  exact get?_of_mapM (Outcome.mapM_reverse hvalues) key

/-- A parameter is what the scalar under its key is read as. -/
theorem get?_parameters {entries : List (String × Tree)} (he : root.tree.get? "parameters" = some (.map entries))
    (hd : KeysDiffer entries) (key : String) :
    p.parameters.get? key = (Entries.get? key entries).bind ParamValue.ofTree? := by
  rw [h.get?_parameters_reverse he, Entries.get?_reverse hd]

end ReadFrom

end Protocol

end PhaseCert
