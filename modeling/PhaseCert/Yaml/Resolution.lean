/-
  PhaseCert.Yaml.Resolution — the values that scalars stand for.

  A plain scalar without a tag stands for null, a truth value, an integer or a float if it
  is written like one, and otherwise for its text. An integer past 64 bits is refused as
  long as it is within 128 bits, and past those it is a float.
-/
import PhaseCert.Decimal.Numeral
import PhaseCert.Tree
import PhaseCert.Yaml.Tag

namespace PhaseCert.Yaml

def isNullWord (s : String) : Bool := s = "null" || s = "Null" || s = "NULL" || s = "~"

def boolWord? (s : String) : Option Bool :=
  if s = "true" ∨ s = "True" ∨ s = "TRUE" then some true
  else if s = "false" ∨ s = "False" ∨ s = "FALSE" then some false
  else none

/-- The number that digits of a base spell, if there is at least one. -/
def inBase? (base : Nat) (ds : List Char) : Option Nat :=
  if ds = [] then none
  else ds.foldlM (fun n c => (hexValue? c).bind fun v => if v < base then some (base * n + v) else none) 0

/-- Digits with a zero in front of them, which are no number. -/
def hasIdleZero : List Char → Bool
  | '0' :: c :: cs => (c :: cs).all Char.isDigit
  | _ => false

def magnitude? : List Char → Option Nat
  | '0' :: 'x' :: ds => inBase? 16 ds
  | '0' :: 'o' :: ds => inBase? 8 ds
  | '0' :: 'b' :: ds => inBase? 2 ds
  | ds => if hasIdleZero ds then none else inBase? 10 ds

/-- How an integer is kept. -/
inductive Fit where
  | whole (n : Whole)
  /-- Past 64 bits. -/
  | tooLarge
  /-- No integer, or past 128 bits. -/
  | other

def fit (s : String) : Fit :=
  let (negative, ds) := Numeral.sign s.toList
  match magnitude? ds with
  | none => .other
  | some m =>
    let n : Int := if negative then -(m : Int) else m
    match Whole.ofInt? n with
    | some n => .whole n
    | none => if -(Nat.pow 2 127 : Nat) ≤ n ∧ n < (Nat.pow 2 128 : Nat) then .tooLarge else .other

def infinity? (s : String) : Option Binary64 :=
  if s = ".inf" ∨ s = ".Inf" ∨ s = ".INF" ∨ s = "+.inf" ∨ s = "+.Inf" ∨ s = "+.INF" then
    some (.infinite false)
  else if s = "-.inf" ∨ s = "-.Inf" ∨ s = "-.INF" then some (.infinite true)
  else none

/-- The double that a scalar names, or that its decimal is nearest to and finite. -/
def float? (s : String) : Option Binary64 :=
  match infinity? s with
  | some x => some x
  | none =>
    if s = ".nan" ∨ s = ".NaN" ∨ s = ".NAN" then some .nan
    else (Numeral.real? s).filter (·.isFinite)

def plainTree? (s : String) : Option Tree :=
  if s = "" ∨ isNullWord s then some .null
  else
    match boolWord? s with
    | some b => some (.bool b)
    | none =>
      match fit s with
      | .whole n => some (.int n)
      | .tooLarge => none
      | .other =>
        if hasIdleZero (Numeral.sign s.toList).2 then some (.text s)
        else
          match float? s with
          | some x => some (.ofReal x)
          | none => some (.text s)

/-- What a scalar with a tag stands for; the tag decides, whether it is plain or quoted. -/
def taggedTree? (tag : Tag) (s : String) : Option Tree :=
  match tag with
  | .own => none
  | .bool => (boolWord? s).map .bool
  | .int =>
    match fit s with
    | .whole n => some (.int n)
    | _ => none
  | .float => (float? s).map .ofReal
  | .null => if isNullWord s then some .null else none
  | .other => some (.text s)

def scalarTree? (tag : Option Tag) (plain : Bool) (s : String) : Option Tree :=
  match tag with
  | some tag => taggedTree? tag s
  | none => if plain then plainTree? s else some (.text s)

end PhaseCert.Yaml
