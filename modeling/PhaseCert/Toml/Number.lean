/-
  PhaseCert.Toml.Number — integers and floats of TOML.

  Single underscores may stand between digits. An integer has to be within the signed 64
  bits, and a float that is written with digits must not round to positive infinity. What a
  tree cannot hold, NaN and the infinities, becomes null.
-/
import PhaseCert.Decimal.Numeral
import PhaseCert.Text.Hex
import PhaseCert.Tree

namespace PhaseCert.Toml

/-- Digits after a first one, without the underscores between them, and the rest. -/
def moreDigits (isDigit : Char → Bool) : List Char → List Char × List Char
  | '_' :: c :: cs =>
    if isDigit c then
      let (ds, rest) := moreDigits isDigit cs
      (c :: ds, rest)
    else ([], '_' :: c :: cs)
  | c :: cs =>
    if isDigit c then
      let (ds, rest) := moreDigits isDigit cs
      (c :: ds, rest)
    else ([], c :: cs)
  | [] => ([], [])

/-- At least one digit. -/
def digits? (isDigit : Char → Bool) : List Char → Option (List Char × List Char)
  | [] => none
  | c :: cs =>
    if isDigit c then
      let (ds, rest) := moreDigits isDigit cs
      some (c :: ds, rest)
    else none

/-- The digits before a point: a zero stands alone. -/
def whole? : List Char → Option (List Char × List Char)
  | '0' :: cs => some (['0'], cs)
  | cs => digits? Char.isDigit cs

/-- The digits after a point; `none` for a point without any. -/
def fraction? : List Char → Option (List Char × List Char)
  | '.' :: cs => digits? Char.isDigit cs
  | cs => some ([], cs)

/-- The exponent that comes next, if one does; `none` for one without digits. -/
def exponent? : List Char → Option (Option Int × List Char)
  | [] => some (none, [])
  | c :: cs =>
    if c = 'e' ∨ c = 'E' then
      let (negative, cs) := Numeral.sign cs
      (digits? Char.isDigit cs).map fun (ds, rest) =>
        (some (if negative then -(Numeral.natOfDigits ds : Int) else Numeral.natOfDigits ds), rest)
    else some (none, c :: cs)

def signedInt? (n : Int) : Option Tree :=
  if h : -9223372036854775808 ≤ n ∧ n < 9223372036854775808 then some (.int (.ofSigned ⟨n, h⟩)) else none

/-- The digits and the base of an integer that is not in decimal. -/
def isDigitOf (base : Nat) (c : Char) : Bool :=
  match hexValue? c with
  | some v => v < base
  | none => false

def based? (base : Nat) (cs : List Char) : Option (Tree × List Char) := do
  let (ds, rest) ← digits? (isDigitOf base) cs
  let n := ds.foldl (fun n c => base * n + ((hexValue? c).getD 0)) 0
  return (← signedInt? n, rest)

/-- A decimal integer or float, after its sign. -/
def decimal? (negative : Bool) (cs : List Char) : Option (Tree × List Char) := do
  let (whole, rest) ← whole? cs
  let (part, rest) ← fraction? rest
  let (exponent, rest) ← exponent? rest
  if part = [] ∧ exponent = none then
    let n := Numeral.natOfDigits whole
    return (← signedInt? (if negative then -(n : Int) else n), rest)
  else
    let d : Decimal := ⟨Numeral.natOfDigits (whole ++ part), exponent.getD 0 - part.length⟩
    let x := d.toBinary64 negative
    if x = .infinite false then none else return (.ofReal x, rest)

/-- The words for what is not finite, after a sign. -/
def notFinite? : List Char → Option (List Char)
  | 'i' :: 'n' :: 'f' :: cs => some cs
  | 'n' :: 'a' :: 'n' :: cs => some cs
  | _ => none

def number? : List Char → Option (Tree × List Char)
  | '0' :: 'x' :: cs => based? 16 cs
  | '0' :: 'o' :: cs => based? 8 cs
  | '0' :: 'b' :: cs => based? 2 cs
  | cs =>
    let (negative, rest) := Numeral.sign cs
    match notFinite? rest with
    | some rest => some (.null, rest)
    | none => decimal? negative rest

end PhaseCert.Toml
