/-
  PhaseCert.Parameters — the open-ended scalar parameters of a protocol.

  A parameter is read at its point of use, with a default for when it is absent. A present
  parameter is never passed over for the default: a value of the wrong kind is a fault.
-/
import PhaseCert.Decimal.Numeral
import PhaseCert.Fault
import PhaseCert.Text.Blank

namespace PhaseCert

inductive ParamValue where
  | integer (n : Signed64)
  | float (x : Binary64)
  | bool (b : Bool)
  | text (s : String)
  deriving DecidableEq

namespace ParamValue

def display : ParamValue → String
  | .integer n => toString n.val
  | .float x => NumberLayout.plain.text x
  | .bool b => toString b
  | .text s => shown s

/-- What a fault says this value is. -/
def found : ParamValue → Found
  | .integer n => .integer n.val
  | .float x => .real x
  | .bool _ => .kind .bool
  | .text s => .quoted s

/-- The double nearest to the value; a text counts as the numeral it holds. -/
def real? : ParamValue → Option Binary64
  | .integer n => some (.ofInt n.val)
  | .float x => some x
  | .bool _ => none
  | .text s => Numeral.real? (trimBlanks s)

/-- The number of things a value stands for: a natural number below 2^64. A float has to be
    whole; the float 2^64 counts as the largest such number. -/
def count? : ParamValue → Option Nat
  | .integer n => if 0 ≤ n.val then some n.val.toNat else none
  | .float x =>
    match x.toInt? with
    | some n => if 0 ≤ n ∧ n ≤ 18446744073709551616 then some (min n.toNat 18446744073709551615) else none
    | none => none
  | .bool _ => none
  | .text s =>
    match Numeral.nat? (trimBlanks s) with
    | some n => if n < 18446744073709551616 then some n else none
    | none => none

/-- The tree of a value, floats without a tree as null. -/
def toTree : ParamValue → Tree
  | .integer n => .int (.ofSigned n)
  | .float x => .ofReal x
  | .bool b => .bool b
  | .text s => .text s

/-- A scalar as a parameter: integers of the signed range stay integers, every other number
    is a float. -/
def ofTree? : Tree → Option ParamValue
  | .int n =>
    match n.signed? with
    | some i => some (.integer i)
    | none => some (.float (.ofInt n.val))
  | .float x => some (.float x.val)
  | .bool b => some (.bool b)
  | .text s => some (.text s)
  | _ => none

/-- A scalar whose kind is not told: the kinds are tried in turn, and the first that takes the
    tree has it. -/
def decode? (t : Tree) : Option ParamValue :=
  (t.integer?.map integer).or <| (t.real?.map float).or <| (t.flag?.map bool).or (t.text?.map text)

end ParamValue

abbrev Parameters := KeyMap ParamValue

namespace Parameters

def place (key : String) : Place := [.key "parameters", .key key]

/-- The real number under a key, or the default where the key is absent. -/
def realOr (p : Parameters) (key : String) (default : Binary64) : Except Fault Binary64 :=
  match p.get? key with
  | none => .ok default
  | some v =>
    match v.real? with
    | none => .error ⟨place key, .expected .number v.found⟩
    | some x =>
      if x.isFinite then .ok x else .error ⟨place key, .expected .finiteNumber v.found⟩

/-- The count under a key, or the default where the key is absent. -/
def countOr (p : Parameters) (key : String) (default : Nat) : Except Fault Nat :=
  match p.get? key with
  | none => .ok default
  | some v =>
    match v.count? with
    | none => .error ⟨place key, .expected .count v.found⟩
    | some n => .ok n

def toTree (p : Parameters) : Tree := .map (p.entries.map fun e => (e.1, e.2.toTree))

/-- Parameters on their own: a mapping of values that are each decoded. -/
def ofTree? : Tree → Option Parameters
  | .map entries =>
    (entries.mapM fun e => (ParamValue.decode? e.2).map fun v => (e.1, v)).map KeyMap.ofList
  | _ => none

end Parameters

end PhaseCert
