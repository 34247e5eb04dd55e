/-
  PhaseCert.Tree — documents as trees.

  A document is a tree of mappings, sequences and scalars, whichever notation it was written
  in. Its integers are those of 64 bits, signed or not; its other numbers are finite
  doubles. A mapping is a list of entries: what is read from a text has them in key order,
  each key once (`Tree.Canonical`), and what is written may have them in another order.
-/
import PhaseCert.Binary64.Rounding
import PhaseCert.KeyMap

namespace PhaseCert

/-- An integer of 64 bits, signed or unsigned: from -2^63 to below 2^64. -/
abbrev Whole := { n : Int // -9223372036854775808 ≤ n ∧ n < 18446744073709551616 }

/-- A signed integer of 64 bits: from -2^63 to below 2^63. -/
abbrev Signed64 := { n : Int // -9223372036854775808 ≤ n ∧ n < 9223372036854775808 }

namespace Whole

def ofInt? (n : Int) : Option Whole :=
  if h : -9223372036854775808 ≤ n ∧ n < 18446744073709551616 then some ⟨n, h⟩ else none

def ofSigned (n : Signed64) : Whole := ⟨n.val, n.property.1, by have := n.property.2; omega⟩

/-- The same integer, if it is within the signed range. -/
def signed? (n : Whole) : Option Signed64 :=
  if h : n.val < 9223372036854775808 then some ⟨n.val, n.property.1, h⟩ else none

end Whole

inductive Tree where
  | null
  | bool (b : Bool)
  | int (n : Whole)
  | float (x : Finite64)
  | text (s : String)
  | seq (items : List Tree)
  | map (entries : List (String × Tree))

instance : Inhabited Tree := ⟨.null⟩

/-- The key of the one entry that a date or time becomes in a tree, its value the text. -/
def dateKey : String := "$__toml_private_datetime"

/-- What a message says a tree is. -/
inductive Kind where
  | null
  | bool
  | number
  | string
  | sequence
  | mapping
  deriving DecidableEq, Repr

def Kind.name : Kind → String
  | .null => "null"
  | .bool => "bool"
  | .number => "number"
  | .string => "string"
  | .sequence => "sequence"
  | .mapping => "mapping"

namespace Tree

def kind : Tree → Kind
  | .null => .null
  | .bool _ => .bool
  | .int _ => .number
  | .float _ => .number
  | .text _ => .string
  | .seq _ => .sequence
  | .map _ => .mapping

def isNull : Tree → Bool
  | .null => true
  | _ => false

/-- The tree of a double; a tree has no place for NaN and infinities, which become null. -/
def ofReal (x : Binary64) : Tree :=
  match x.finite? with
  | some y => .float y
  | none => .null

/-- The double that a number is, or is nearest to. -/
def real? : Tree → Option Binary64
  | .int n => some (.ofInt n.val)
  | .float x => some x.val
  | _ => none

/-- The signed integer that a number is; a float is none, also where it is whole. -/
def integer? : Tree → Option Signed64
  | .int n => n.signed?
  | _ => none

def flag? : Tree → Option Bool
  | .bool b => some b
  | _ => none

def text? : Tree → Option String
  | .text s => some s
  | _ => none

/-- The value of a key, if this is a mapping that has it. -/
def get? (key : String) : Tree → Option Tree
  | .map entries => Entries.get? key entries
  | _ => none

mutual

/-- Every mapping has its entries in key order, each key once. -/
def Canonical : Tree → Prop
  | .seq items => ItemsCanonical items
  | .map entries => KeysGrow entries ∧ EntriesCanonical entries
  | _ => True

def ItemsCanonical : List Tree → Prop
  | [] => True
  | t :: rest => Canonical t ∧ ItemsCanonical rest

def EntriesCanonical : List (String × Tree) → Prop
  | [] => True
  | (_, t) :: rest => Canonical t ∧ EntriesCanonical rest

end

end Tree

end PhaseCert
