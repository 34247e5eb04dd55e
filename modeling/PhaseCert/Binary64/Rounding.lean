/-
  PhaseCert.Binary64.Rounding — the double nearest to a quotient, and arithmetic.

  `roundDiv` rounds a quotient of natural numbers to the nearest integer, ties to even.
  `nearestRank` rounds a nonnegative quotient of units to the rank of the nearest double:
  it keeps 53 significant bits, or the bits above one unit where that is fewer, and the
  carry out of a full significand is the next rank. Sums, differences and integers are
  formed exactly and rounded once.
-/
import PhaseCert.Binary64.Basic

namespace PhaseCert

/-- `n / d` to the nearest integer, a tie to the even one. -/
def roundDiv (n d : Nat) : Nat :=
  let q := n / d
  let r := n % d
  if 2 * r < d ∨ (2 * r = d ∧ q % 2 = 0) then q else q + 1

namespace Binary64

/-- The rank of the double nearest to `n / d` units, a tie to the even rank. -/
def nearestRank (n d : Nat) : Nat :=
  let shift := (n / d).log2 - 52
  shift * Nat.pow 2 52 + roundDiv n (d * Nat.pow 2 shift)

/-- The double nearest to `n / d` units, with the given sign. -/
def ofUnits (negative : Bool) (n d : Nat) : Binary64 :=
  ofRank negative (nearestRank n d)

/-- The double nearest to `n / d`, with the given sign. -/
def ofQuotient (negative : Bool) (n d : Nat) : Binary64 :=
  ofUnits negative (n * Nat.pow 2 1074) d

def ofInt (n : Int) : Binary64 :=
  ofQuotient (n < 0) n.natAbs 1

/-- The exact sum, rounded once. A sum of zero is negative only if both terms are. -/
def add : Binary64 → Binary64 → Binary64
  | .nan, _ => .nan
  | _, .nan => .nan
  | .infinite s, .infinite t => if s = t then .infinite s else .nan
  | .infinite s, .finite _ _ => .infinite s
  | .finite _ _, .infinite t => .infinite t
  | .finite s a, .finite t b =>
    let sum := units (.finite s a) + units (.finite t b)
    ofUnits (if sum = 0 then s && t else sum < 0) sum.natAbs 1

def sub (x y : Binary64) : Binary64 := x.add y.neg

/-- The larger of `x` and `bound`; a NaN gives way to the bound. -/
def atLeast (x bound : Binary64) : Binary64 := if bound.lt x then x else bound

/-- The smaller of `x` and `bound`; a NaN gives way to the bound. -/
def atMost (x bound : Binary64) : Binary64 := if x.lt bound then x else bound

/-- The integer a finite double is equal to, if it is one. -/
def toInt? (x : Binary64) : Option Int :=
  if x.isFinite ∧ x.units % (Nat.pow 2 1074 : Nat) = 0 then some (x.units / (Nat.pow 2 1074 : Nat)) else none

end Binary64

end PhaseCert
