/-
  PhaseCert.Decimal.Layout — how a double is written.

  Three layouts share the shortest digits and differ in when a power of ten is written out
  and in small marks: `plain` (texts for people), `exact` (a value shown with its kind) and
  `json`. `fixed` writes a set number of places, rounding half to even, and rounds from the
  exact value, not from the shortest digits.
-/
import PhaseCert.Decimal.Shortest

namespace PhaseCert

/-- What a layout decides. The scientific exponent of `d.ddd * 10 ^ k` is `k`. -/
structure NumberLayout where
  /-- Is a number of this scientific exponent written without a power of ten? -/
  positional : Int → Bool
  /-- Does a whole number written without a power of ten end in `.0`? -/
  pointZero : Bool
  /-- Does a power of ten that is not negative have a plus? -/
  plusSign : Bool

namespace NumberLayout

/-- Never a power of ten, whole numbers bare. -/
def plain : NumberLayout := ⟨fun _ => true, false, false⟩

/-- Powers of ten below 1e-4 and from 1e16 on, whole numbers with `.0`. -/
def exact : NumberLayout := ⟨fun k => -4 ≤ k && k ≤ 15, true, false⟩

/-- Powers of ten below 1e-5 and from 1e16 on, with their sign. -/
def json : NumberLayout := ⟨fun k => -5 ≤ k && k ≤ 15, true, true⟩

/-- Digits without a power of ten: `point` of them stand before the point. -/
def positionalText (layout : NumberLayout) (ds : List Char) (point : Int) : List Char :=
  if point ≤ 0 then '0' :: '.' :: (List.replicate point.natAbs '0' ++ ds)
  else if ds.length ≤ point.toNat then
    ds ++ List.replicate (point.toNat - ds.length) '0' ++ (if layout.pointZero then ['.', '0'] else [])
  else ds.take point.toNat ++ '.' :: ds.drop point.toNat

/-- Digits as `d.ddd` times a power of ten. -/
def scientificText (layout : NumberLayout) (ds : List Char) (k : Int) : List Char :=
  let mantissa := match ds with
    | [] => []
    | [d] => [d]
    | d :: rest => d :: '.' :: rest
  let mark := if k < 0 then ['-'] else if layout.plusSign then ['+'] else []
  mantissa ++ 'e' :: (mark ++ (toString k.natAbs).toList)

/-- The text of a decimal. -/
def decimalText (layout : NumberLayout) (d : Decimal) : List Char :=
  let ds := (toString d.coefficient).toList
  let point := d.exponent + ds.length
  if d.coefficient = 0 then
    '0' :: (if layout.pointZero then ['.', '0'] else [])
  else if layout.positional (point - 1) then layout.positionalText ds point
  else layout.scientificText ds (point - 1)

/-- The text of a double. -/
def text (layout : NumberLayout) : Binary64 → String
  | .nan => "NaN"
  | .infinite s => if s then "-inf" else "inf"
  | .finite s rank =>
    String.ofList ((if s then ['-'] else []) ++ layout.decimalText (.shortest rank))

end NumberLayout

/-- A natural number's digits, with zeros in front up to the given length. -/
def paddedDigits (length n : Nat) : List Char :=
  let ds := (toString n).toList
  List.replicate (length - ds.length) '0' ++ ds

/-- A double with a set number of places, rounded half to even; the sign is that of the
    double, even where the digits are all zero. -/
def fixedText (places : Nat) : Binary64 → String
  | .nan => "NaN"
  | .infinite s => if s then "-inf" else "inf"
  | .finite s rank =>
    let scaled := roundDiv (Binary64.unitsOfRank rank * Nat.pow 10 places) (Nat.pow 2 1074)
    String.ofList ((if s then ['-'] else []) ++ (toString (scaled / Nat.pow 10 places)).toList
      ++ '.' :: paddedDigits places (scaled % Nat.pow 10 places))

end PhaseCert
