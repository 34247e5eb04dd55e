/-
  PhaseCert.Decimal.Shortest — the fewest digits that read back to the same double.

  The reals that round to a double form an interval around it, halfway to each neighbour;
  its ends belong to it exactly if the rank is even, since ties go to even. The search runs
  through the powers of ten from above the value down: the first grid of multiples with a
  point in the interval has the fewest digits, of two such points beside the value the
  nearer one is taken, and of two equally near the one with the even last digit. The exact
  decimal of the double, which always lies in the interval, closes the search.
-/
import PhaseCert.Decimal.Basic

namespace PhaseCert

namespace Shortest

/-- The interval of a positive rank and the double itself, in halves of a unit. -/
structure Range where
  lower : Nat
  value : Nat
  upper : Nat
  closed : Bool

def Range.ofRank (rank : Nat) : Range where
  lower := Binary64.unitsOfRank (rank - 1) + Binary64.unitsOfRank rank
  value := 2 * Binary64.unitsOfRank rank
  upper := Binary64.unitsOfRank rank + Binary64.unitsOfRank (rank + 1)
  closed := rank % 2 = 0

/-- Does `n / d` halves of a unit lie in the interval? -/
def Range.has (r : Range) (n d : Nat) : Bool :=
  if r.closed then r.lower * d ≤ n && n ≤ r.upper * d else r.lower * d < n && n < r.upper * d

/-- One grid step `10 ^ e`, as a quotient of halves of a unit. -/
def step : Int → Nat × Nat
  | .ofNat e => (Nat.pow 10 e * Nat.pow 2 1075, 1)
  | .negSucc e => (Nat.pow 2 1075, Nat.pow 10 (e + 1))

/-- The multiple of `10 ^ e` in the interval that is nearest to the double. -/
def onGrid (r : Range) (e : Int) : Option Decimal :=
  let (n, d) := step e
  let below := r.value * d / n
  let above := below + 1
  let toBelow := r.value * d - below * n
  let toAbove := above * n - r.value * d
  match r.has (below * n) d, r.has (above * n) d with
  | true, true =>
    if toBelow < toAbove ∨ (toBelow = toAbove ∧ below % 2 = 0) then some ⟨below, e⟩
    else some ⟨above, e⟩
  | true, false => some ⟨below, e⟩
  | false, true => some ⟨above, e⟩
  | false, false => none

/-- An exponent `e` with the number of this many units below `10 ^ e`. -/
def ceilingExponent (units : Nat) : Int :=
  ((units.log2 : Int) - 1073) * 30103 / 100000 + 2

end Shortest

/-- The decimal with the fewest digits that the double of this rank is nearest to. -/
def Decimal.shortest (rank : Nat) : Decimal :=
  if rank = 0 then ⟨0, 0⟩
  else
    let r := Shortest.Range.ofRank rank
    let units := Binary64.unitsOfRank rank
    let top := Shortest.ceilingExponent units
    let found := (List.range 22).findSome? fun (i : Nat) => Shortest.onGrid r (top - i)
    found.getD ⟨units * Nat.pow 5 1074, -1074⟩

end PhaseCert
