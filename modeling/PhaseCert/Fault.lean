/-
  PhaseCert.Fault — what is wrong in a document, and where.

  A place is the way from the root: keys and list positions. A fault is a place and a cause;
  its message names both.
-/
import PhaseCert.Decimal.Layout
import PhaseCert.Text.Quoted
import PhaseCert.Tree

namespace PhaseCert

/-- One step down a tree. -/
inductive Step where
  | key (k : String)
  | item (i : Nat)
  deriving DecidableEq, Repr

abbrev Place := List Step

/-- Keys are joined by points, positions stand in brackets. -/
def Place.join : String → Place → String
  | soFar, [] => soFar
  | soFar, .key k :: rest => join (if soFar = "" then k else soFar ++ "." ++ k) rest
  | soFar, .item i :: rest => join (soFar ++ "[" ++ toString i ++ "]") rest

def Place.text (p : Place) : String :=
  let s := Place.join "" p
  if s = "" then "<root>" else s

/-- What a value has to be. -/
inductive Expected where
  | mapping
  | sequence
  | string
  | bool
  | number
  | finiteNumber
  | count
  deriving DecidableEq, Repr

def Expected.text : Expected → String
  | .mapping => "a mapping"
  | .sequence => "a sequence"
  | .string => "a string"
  | .bool => "a bool"
  | .number => "a number"
  | .finiteNumber => "a finite number"
  | .count => "a non-negative integer"

/-- What a value is instead. -/
inductive Found where
  | kind (k : Kind)
  | string (s : String)
  | quoted (s : String)
  | integer (n : Int)
  | real (x : Binary64)
  deriving DecidableEq

def Found.text : Found → String
  | .kind k => k.name
  | .string s => "string " ++ shown s
  | .quoted s => shown s
  | .integer n => toString n
  | .real x => NumberLayout.plain.text x

inductive Cause where
  | noProtocolName
  | missing
  | null
  | expected (what : Expected) (found : Found)
  | notScalar (found : Kind)
  | raggedRow (found width : Nat)
  deriving DecidableEq

def Cause.text : Cause → String
  | .noProtocolName =>
    "missing protocol name (expected a `protocol` section or a top-level `name`)"
  | .missing => "missing required field"
  | .null => "value is null or not a finite number"
  | .expected what found => "expected " ++ what.text ++ ", found " ++ found.text
  | .notScalar found => "parameters must be scalars, found " ++ found.name
  | .raggedRow found width =>
    "ragged matrix: row has " ++ toString found ++ " entries, expected " ++ toString width

structure Fault where
  place : Place
  cause : Cause
  deriving DecidableEq

def Fault.message (f : Fault) : String :=
  "Invalid config at '" ++ f.place.text ++ "': " ++ f.cause.text

end PhaseCert
