/-
  PhaseCert.Protocol.Reading — a protocol from a document tree.

  Sections are read in a fixed order, and the first fault met is the answer: the identity,
  then parameters, states, measurement, device, postprocessing, observations, goal and
  authorship, and within a section field by field. A null stands for absence where a value
  may be absent and is a fault where it may not. Numbers may be given as texts, and scalars
  stand for the texts of string fields. Keys that no section reads are ignored.
-/
import PhaseCert.Json.Writer
import PhaseCert.Protocol

namespace PhaseCert

/-- A tree and the place where it stands. -/
structure Located where
  place : Place
  tree : Tree

namespace Located

abbrev Reading (α : Type) := Except Fault α

def fault {α : Type} (t : Located) (cause : Cause) : Reading α := .error ⟨t.place, cause⟩

def unexpected {α : Type} (t : Located) (what : Expected) : Reading α :=
  t.fault (.expected what (.kind t.tree.kind))

def child (t : Located) (key : String) (tree : Tree) : Located := ⟨t.place ++ [.key key], tree⟩

def entries (t : Located) : Reading (List (String × Tree)) :=
  match t.tree with
  | .map entries => .ok entries
  | _ => t.unexpected .mapping

/-- The value of a key, where it is present and not null. -/
def optional (t : Located) (key : String) : Option Located :=
  match t.tree.get? key with
  | none => none
  | some v => if v.isNull then none else some (t.child key v)

/-- The value of a key that has to be present and not null. -/
def field (t : Located) (key : String) : Reading Located := do
  let entries ← t.entries
  match Entries.get? key entries with
  | none => .error ⟨t.place ++ [.key key], .missing⟩
  | some v => if v.isNull then .error ⟨t.place ++ [.key key], .null⟩ else .ok (t.child key v)

def expectMapping (t : Located) : Reading Unit := do
  let _ ← t.entries

/-- A required mapping. -/
def subsection (t : Located) (key : String) : Reading Located := do
  let s ← t.field key
  s.expectMapping
  return s

def itemsFrom (place : Place) : Nat → List Tree → List Located
  | _, [] => []
  | i, t :: rest => ⟨place ++ [.item i], t⟩ :: itemsFrom place (i + 1) rest

def items (t : Located) : Reading (List Located) :=
  match t.tree with
  | .seq items => .ok (itemsFrom t.place 0 items)
  | _ => t.unexpected .sequence

/-- A finite number, or a text that holds one. -/
def real (t : Located) : Reading Binary64 :=
  let finite (x : Binary64) : Reading Binary64 :=
    if x.isFinite then .ok x else t.fault (.expected .finiteNumber (.real x))
  match t.tree with
  | .int n => finite (.ofInt n.val)
  | .float x => finite x.val
  | .text s =>
    match Numeral.real? (trimBlanks s) with
    | some x => finite x
    | none => t.fault (.expected .number (.string s))
  | _ => t.unexpected .number

/-- A text, or a scalar or date that is written as one. -/
def text (t : Located) : Reading String :=
  match t.tree with
  | .text s => .ok s
  | .int n => .ok (String.ofList (Json.intText n.val))
  | .float x => .ok (String.ofList (Json.floatText x.val))
  | .bool b => .ok (if b then "true" else "false")
  | .map [(key, .text s)] => if key = dateKey then .ok s else t.unexpected .string
  | _ => t.unexpected .string

def flag (t : Located) : Reading Bool :=
  match t.tree with
  | .bool b => .ok b
  | _ => t.unexpected .bool

def amplitude (t : Located) : Reading Amplitude := do
  t.expectMapping
  let re ← (← t.field "re").real
  let im ← (← t.field "im").real
  return ⟨re, im⟩

def row (t : Located) : Reading (List Amplitude) := do
  (← t.items).mapM amplitude

/-- The first row that is not of this width, with its position. -/
def ragged? {α : Type} (width : Nat) : Nat → List (List α) → Option (Nat × Nat)
  | _, [] => none
  | i, r :: rest => if r.length = width then ragged? width (i + 1) rest else some (i, r.length)

/-- Rows of one width. -/
def matrix (t : Located) : Reading (List (List Amplitude)) := do
  let rows ← (← t.items).mapM row
  match rows with
  | [] => return []
  | first :: _ =>
    match ragged? first.length 0 rows with
    | some (i, found) => .error ⟨t.place ++ [.item i], .raggedRow found first.length⟩
    | none => return rows

def parameter (t : Located) : Reading ParamValue :=
  match ParamValue.ofTree? t.tree with
  | some v => .ok v
  | none => t.fault (.notScalar t.tree.kind)

def realField (t : Located) (key : String) : Reading Binary64 := do (← t.field key).real

def textField (t : Located) (key : String) : Reading String := do (← t.field key).text

/-- A text that may be left out, and is then empty. -/
def optionalText (t : Located) (key : String) : Reading String :=
  match t.optional key with
  | some v => v.text
  | none => .ok ""

/-! ## Sections -/

/-- Name and description: those of the `protocol` section, or, without one, the root's. -/
def identity (root : Located) : Reading (String × String) :=
  match root.optional "protocol" with
  | some s => do
    s.expectMapping
    let name ← s.textField "name"
    let description ← s.optionalText "description"
    return (name, description)
  | none =>
    match root.optional "name" with
    | some v => do
      let name ← v.text
      let description ← root.optionalText "description"
      return (name, description)
    | none => .error ⟨[.key "protocol", .key "name"], .noProtocolName⟩

def parameters (root : Located) : Reading Parameters :=
  match root.optional "parameters" with
  | none => .ok .empty
  | some s => do
    let entries ← s.entries
    let values ← entries.mapM fun e => do
      let v ← (s.child e.1 e.2).parameter
      return (e.1, v)
    return KeyMap.ofList values

def signalState (t : Located) : Reading SignalState := do
  t.expectMapping
  let label ← t.textField "label"
  let prior ← t.realField "p"
  let amplitudes ← (← (← t.field "vec").items).mapM amplitude
  return ⟨label, prior, amplitudes⟩

def states (root : Located) : Reading (List SignalState) :=
  match root.optional "states" with
  | none => .ok []
  | some s => do (← s.items).mapM signalState

def povmElement (t : Located) : Reading PovmElement := do
  t.expectMapping
  let label ← t.textField "label"
  let matrix ← (← t.field "matrix").matrix
  return ⟨label, matrix⟩

/-- Without the section, nothing is measured and the measurement is to be normalised. -/
def measurement (root : Located) : Reading Measurement :=
  match root.optional "measurements" with
  | none => .ok ⟨true, []⟩
  | some s => do
    s.expectMapping
    let normalize ← match s.optional "normalize" with
      | some v => v.flag
      | none => .ok true
    let povm ← match s.optional "povm" with
      | some v => do (← v.items).mapM povmElement
      | none => .ok []
    return ⟨normalize, povm⟩

def device (root : Located) : Reading Device := do
  let s ← root.subsection "device"
  let eta ← s.realField "eta"
  let darkCount ← s.realField "dark_count"
  let detectorEfficiency ← s.realField "detector_efficiency"
  return ⟨eta, darkCount, detectorEfficiency⟩

def errorCorrection (t : Located) : Reading ErrorCorrection := do
  let s ← t.subsection "error_correction"
  let scheme ← s.textField "scheme"
  let targetFailure ← s.realField "target_ferr"
  let inefficiency ← s.realField "inefficiency_f"
  return ⟨scheme, targetFailure, inefficiency⟩

def privacyAmplification (t : Located) : Reading PrivacyAmplification := do
  let s ← t.subsection "privacy_amplification"
  let method ← s.textField "method"
  let hashFamily ← s.textField "hash_family"
  let securityParameter ← s.realField "security_parameter"
  return ⟨method, hashFamily, securityParameter⟩

def postprocessing (root : Located) : Reading Postprocessing := do
  let s ← root.subsection "postprocessing"
  let errorCorrection ← s.errorCorrection
  let privacyAmplification ← s.privacyAmplification
  let sifting ← s.textField "sifting"
  return ⟨sifting, errorCorrection, privacyAmplification⟩

def observed (root : Located) : Reading Observed := do
  let s ← root.subsection "observed"
  let conclusive ← s.realField "p_conclusive"
  let conclusiveErrorRate ← s.realField "error_rate_conclusive"
  let inconclusive ← s.realField "p_inconclusive"
  return ⟨conclusive, conclusiveErrorRate, inconclusive⟩

def securityGoal (root : Located) : Reading SecurityGoal := do
  let s ← root.subsection "security_goal"
  let output ← s.textField "output"
  let epsilon ← s.realField "epsilon"
  let formulaHint ← s.textField "formula_hint"
  return ⟨output, epsilon, formulaHint⟩

def authorship (root : Located) : Reading Authorship := do
  let s ← root.subsection "meta"
  let author ← s.textField "author"
  let email ← s.textField "email"
  let date ← s.textField "date"
  let notes ← s.textField "notes"
  return ⟨author, email, date, notes⟩

end Located

/-- The protocol that a document describes, or its first fault. -/
def Protocol.ofTree (document : Tree) : Except Fault Protocol := do
  let root : Located := ⟨[], document⟩
  root.expectMapping
  let (name, description) ← root.identity
  return {
    name, description
    parameters := ← root.parameters
    states := ← root.states
    measurement := ← root.measurement
    device := ← root.device
    postprocessing := ← root.postprocessing
    observed := ← root.observed
    securityGoal := ← root.securityGoal
    authorship := ← root.authorship }

end PhaseCert
