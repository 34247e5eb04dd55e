/-
  PhaseCert.Decimal.Basic — decimals, and the double nearest to one.

  A decimal is a coefficient times a power of ten. Coefficients and exponents may be of any
  size, so the two ends are settled before any power is formed: a decimal that is at least
  2^1024 is an infinity and one that is less than 2^-1075 is a zero, as rounding would
  give, and between them the power stays in proportion to the coefficient.
-/
import PhaseCert.Binary64.Rounding

namespace PhaseCert

/-- `coefficient * 10 ^ exponent`. -/
structure Decimal where
  coefficient : Nat
  exponent : Int
  deriving DecidableEq, Repr

namespace Decimal

/-- The double nearest to the decimal, with the given sign. -/
def toBinary64 (negative : Bool) (d : Decimal) : Binary64 :=
  if d.coefficient = 0 then .ofRank negative 0
  else
    let bits := d.coefficient.log2
    match d.exponent with
    | .ofNat e =>
      if 1024 ≤ bits + 3 * e then .infinite negative
      else .ofQuotient negative (d.coefficient * Nat.pow 10 e) 1
    | .negSucc e =>
      if bits + 1 + 1075 ≤ 3 * (e + 1) then .ofRank negative 0
      else .ofQuotient negative d.coefficient (Nat.pow 10 (e + 1))

end Decimal

end PhaseCert
