/-
  PhaseCert.Certificate.Basic — the normalised certificate.

  It holds the estimate where there was one, the interval around it, the provenance record
  as it was given, and whatever else came along, kept apart in two open maps. Written as
  JSON its fields come in a fixed order and the other keys after them; as a bundle all keys
  are in key order, and an open key that is also a field's name takes the field's place.
-/
import PhaseCert.Estimate
import PhaseCert.Interval
import PhaseCert.Json.Writer

namespace PhaseCert

structure CertificateMeta where
  normalized : Bool
  extra : KeyMap Tree

structure Certificate where
  estimate : Option Binary64
  interval : Interval
  /-- The provenance record; `some .null` is one that was given as null. -/
  provenance : Option Tree
  info : CertificateMeta
  extra : KeyMap Tree

namespace CertificateMeta

def fields (m : CertificateMeta) : List (String × Tree) :=
  ("normalized", .bool m.normalized) :: m.extra.entries

def written (m : CertificateMeta) : Tree := .map m.fields

def toTree (m : CertificateMeta) : Tree := .map (KeyMap.ofList m.fields).entries

/-- Keys that are no field go to the open map. -/
def ofTree? : Tree → Option CertificateMeta
  | .map entries =>
    match Entries.get? "normalized" entries with
    | some (.bool b) => some ⟨b, (KeyMap.ofList entries).erase "normalized"⟩
    | _ => none
  | _ => none

end CertificateMeta

namespace Certificate

/-- The fields, then the open keys, with `info` as the tree of the inner record. -/
def fields (c : Certificate) (info : Tree) : List (String × Tree) :=
  (c.estimate.map fun x => ("delta_ph", Tree.ofReal x)).toList
    ++ ("delta_ph_interval", c.interval.toTree)
    :: (c.provenance.map fun t => ("certificate", t)).toList
    ++ ("meta", info) :: c.extra.entries

/-- The certificate in the order it is written in. -/
def written (c : Certificate) : Tree := .map (c.fields c.info.written)

def toBundle (c : Certificate) : Bundle := KeyMap.ofList (c.fields c.info.toTree)

def toTree (c : Certificate) : Tree := .map c.toBundle.entries

/-- The JSON text of a certificate. -/
def json (c : Certificate) (indented : Bool) : String :=
  if indented then Json.indented c.written else Json.compact c.written

/-- An absent or null estimate is none; so is an absent or null provenance record. -/
def ofTree? : Tree → Option Certificate
  | .map entries => do
    let estimate ← match Entries.get? "delta_ph" entries with
      | none => some none
      | some .null => some none
      | some t => t.real?.map some
    let interval ← Interval.ofTree? (← Entries.get? "delta_ph_interval" entries)
    let provenance := match Entries.get? "certificate" entries with
      | some .null => none
      | other => other
    let info ← CertificateMeta.ofTree? (← Entries.get? "meta" entries)
    let extra := ((((KeyMap.ofList entries).erase "delta_ph").erase "delta_ph_interval").erase
      "certificate").erase "meta"
    return ⟨estimate, interval, provenance, info, extra⟩
  | _ => none

end Certificate

end PhaseCert
