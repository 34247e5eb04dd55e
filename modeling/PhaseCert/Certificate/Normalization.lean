/-
  PhaseCert.Certificate.Normalization — from an untyped bundle to a certificate.

  The estimate is taken out of the bundle and an interval is put around it; a bundle without
  one gets the whole unit interval. An interval that the bundle already has is stale and is
  dropped. All other keys are carried over unchanged.

  An estimate outside the unit interval is refused: no interval within [0, 1] could hold it.
-/
import PhaseCert.Certificate.Basic

namespace PhaseCert

inductive CertificateError where
  /-- The estimate is present and is no number. -/
  | notNumber (found : Tree)
  | outOfRange (value : Binary64)
  | invalidMargin (margin : Binary64)
  /-- The inner record is present and is no mapping. -/
  | malformed (found : Tree)

def CertificateError.message : CertificateError → String
  | .notNumber found =>
    "Certificate field 'delta_ph' must be a number, found " ++ Json.compact found
  | .outOfRange x =>
    "Certificate field 'delta_ph' = " ++ NumberLayout.plain.text x ++ " is outside [0, 1]"
  | .invalidMargin m =>
    "Invalid normalization margin: " ++ NumberLayout.plain.text m ++ " (must be >= 0)"
  | .malformed found =>
    "Malformed certificate: 'meta' must be a mapping, found " ++ Json.compact found

namespace Certificate

def defaultMargin : Binary64 := Decimal.toBinary64 false ⟨1, -5⟩

/-- A margin is a number that is not negative; it may be infinite. -/
def validMargin (margin : Binary64) : Bool := !margin.isNaN && !margin.lt .zero

/-- The estimate in a bundle, if there is one. -/
def estimateOf (raw : Bundle) : Except CertificateError (Option Binary64) :=
  match raw.get? "delta_ph" with
  | none => .ok none
  | some t =>
    match t.real? with
    | none => .error (.notNumber t)
    | some x =>
      if Binary64.zero.le x && x.le .one then .ok (some x) else .error (.outOfRange x)

/-- The open keys of the inner record of a bundle. -/
def infoOf (raw : Bundle) : Except CertificateError (KeyMap Tree) :=
  match raw.get? "meta" with
  | none => .ok .empty
  | some (.map entries) => .ok ((KeyMap.ofList entries).erase "normalized")
  | some t => .error (.malformed t)

/-- The certificate of a bundle: a bad margin is refused first, then a bad estimate, then a
    bad inner record. -/
def normalize (raw : Bundle) (margin : Binary64) : Except CertificateError Certificate := do
  if !validMargin margin then throw (.invalidMargin margin)
  let estimate ← estimateOf raw
  let info ← infoOf raw
  return {
    estimate
    interval := match estimate with
      | some x => .around x margin
      | none => .unit
    provenance := raw.get? "certificate"
    info := ⟨true, info⟩
    extra := (((raw.erase "delta_ph").erase "certificate").erase "delta_ph_interval").erase "meta" }

def normalizeEstimate (e : Estimate) (margin : Binary64) : Except CertificateError Certificate :=
  normalize e.toBundle margin

end Certificate

end PhaseCert
