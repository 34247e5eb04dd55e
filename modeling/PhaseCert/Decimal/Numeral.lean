/-
  PhaseCert.Decimal.Numeral — numbers written in decimal.

  A numeral is an optional sign, digits with at most one point among or beside them (at
  least one digit in all), and an optional exponent: `e` or `E`, an optional sign, and at
  least one digit. `real?` also takes the words `inf`, `infinity` and `nan`, in any letter
  case and with a sign. Nothing may stand before or after, not even a blank.
-/
import PhaseCert.Decimal.Basic

namespace PhaseCert

namespace Numeral

def digitValue (c : Char) : Nat := c.toNat - '0'.toNat

/-- The number that a run of digits spells. -/
def natOfDigits (ds : List Char) : Nat := ds.foldl (fun n c => 10 * n + digitValue c) 0

/-- An optional sign; `true` for a minus. -/
def sign : List Char → Bool × List Char
  | '-' :: cs => (true, cs)
  | '+' :: cs => (false, cs)
  | cs => (false, cs)

/-- The leading digits, and the rest. -/
def digits (cs : List Char) : List Char × List Char :=
  (cs.takeWhile Char.isDigit, cs.dropWhile Char.isDigit)

/-- The digits after a point, if a point comes next, and the rest. -/
def fraction : List Char → List Char × List Char
  | '.' :: cs => digits cs
  | cs => ([], cs)

/-- The exponent part that ends a numeral; the empty text is exponent 0. -/
def exponent? : List Char → Option Int
  | [] => some 0
  | c :: cs =>
    if c = 'e' ∨ c = 'E' then
      let (negative, ds) := sign cs
      if ds ≠ [] ∧ ds.all Char.isDigit then
        some (if negative then -(natOfDigits ds : Int) else natOfDigits ds)
      else none
    else none

/-- An unsigned numeral. -/
def decimal? (cs : List Char) : Option Decimal :=
  let (whole, rest) := digits cs
  let (part, rest) := fraction rest
  if whole = [] ∧ part = [] then none
  else (exponent? rest).map fun e => ⟨natOfDigits (whole ++ part), e - part.length⟩

/-- The number that a word names. -/
def word? (negative : Bool) (cs : List Char) : Option Binary64 :=
  let w := cs.map Char.toLower
  if w = "inf".toList ∨ w = "infinity".toList then some (.infinite negative)
  else if w = "nan".toList then some .nan
  else none

/-- The double nearest to what the text says, infinities and NaN included. -/
def real? (s : String) : Option Binary64 :=
  let (negative, cs) := sign s.toList
  match decimal? cs with
  | some d => some (d.toBinary64 negative)
  | none => word? negative cs

/-- An optional plus and at least one digit. -/
def nat? (s : String) : Option Nat :=
  let ds := match s.toList with
    | '+' :: cs => cs
    | cs => cs
  if ds ≠ [] ∧ ds.all Char.isDigit then some (natOfDigits ds) else none

end Numeral

end PhaseCert
