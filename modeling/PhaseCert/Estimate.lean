/-
  PhaseCert.Estimate — an estimate of the phase error rate, and where it came from.

  The one estimator there is adds 0.03 to the observed error rate and cuts at 0 and 0.5. It
  is a stand-in until a solver takes its place and carries no security meaning. An
  observation that is no number gives the most pessimistic bound.
-/
import PhaseCert.Protocol

namespace PhaseCert

/-- The tables a document is turned into: texts to trees. -/
abbrev Bundle := KeyMap Tree

def toolVersion : String := "0.3.0"

/-- How an estimate was produced. -/
structure Provenance where
  solver : String
  details : String
  note : String
  version : String
  deriving DecidableEq

namespace Provenance

/-- Stamped with the version of this tool. -/
def of (solver details note : String) : Provenance := ⟨solver, details, note, toolVersion⟩

def placeholder : Provenance := .of "stub" "no-duals-mvp" "replace with SDP dual certificate"

/-- The fields in the order they are written in. -/
def fields (p : Provenance) : List (String × Tree) :=
  [("solver", .text p.solver), ("details", .text p.details), ("note", .text p.note),
    ("qkdv_version", .text p.version)]

def toTree (p : Provenance) : Tree := .map (KeyMap.ofList p.fields).entries

def textOf? : Tree → Option String
  | .text s => some s
  | _ => none

/-- From its four fields, or from a sequence of them. -/
def ofTree? : Tree → Option Provenance
  | .seq [s, d, n, v] => do return ⟨← textOf? s, ← textOf? d, ← textOf? n, ← textOf? v⟩
  | .map entries => do
    let get (key : String) : Option String := do textOf? (← Entries.get? key entries)
    return ⟨← get "solver", ← get "details", ← get "note", ← get "qkdv_version"⟩
  | _ => none

end Provenance

structure Estimate where
  bound : Binary64
  provenance : Provenance
  deriving DecidableEq

namespace Estimate

/-- The estimate with its fields in the order they are written in. -/
def written (e : Estimate) : Tree :=
  .map [("delta_ph", .ofReal e.bound), ("certificate", .map e.provenance.fields)]

def toTree (e : Estimate) : Tree :=
  .map (KeyMap.ofList [("delta_ph", .ofReal e.bound), ("certificate", e.provenance.toTree)]).entries

/-- The untyped bundle that normalisation takes. -/
def toBundle (e : Estimate) : Bundle :=
  (KeyMap.empty.insert "delta_ph" (.ofReal e.bound)).insert "certificate" <|
    .map (KeyMap.ofList [("solver", .text e.provenance.solver), ("details", .text e.provenance.details),
      ("note", .text e.provenance.note), ("qkdv_version", .text e.provenance.version)]).entries

def ofTree? : Tree → Option Estimate
  | .seq [x, p] => do return ⟨← x.real?, ← Provenance.ofTree? p⟩
  | .map entries => do
    return ⟨← (← Entries.get? "delta_ph" entries).real?,
      ← Provenance.ofTree? (← Entries.get? "certificate" entries)⟩
  | _ => none

end Estimate

namespace Placeholder

def name : String := "placeholder"

/-- 0.03 as a double. -/
def offset : Binary64 := Decimal.toBinary64 false ⟨3, -2⟩

def bound (errorRate : Binary64) : Binary64 :=
  let raw := errorRate.add offset
  if raw.isNaN then .half
  else if raw.lt .zero then .zero
  else if Binary64.half.lt raw then .half
  else raw

def estimate (p : Protocol) : Estimate := ⟨bound p.observed.conclusiveErrorRate, .placeholder⟩

end Placeholder

end PhaseCert
