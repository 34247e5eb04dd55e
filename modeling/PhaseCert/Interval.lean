/-
  PhaseCert.Interval — the interval around an estimate.

  `around` puts a margin on both sides and cuts at 0 and 1. The ends are rounded to nearest;
  an end that is no number, as from two infinities, becomes the cut.
-/
import PhaseCert.Tree

namespace PhaseCert

structure Interval where
  lower : Binary64
  upper : Binary64
  deriving DecidableEq

namespace Interval

/-- All of the unit interval: nothing is known. -/
def unit : Interval := ⟨.zero, .one⟩

def around (value margin : Binary64) : Interval :=
  ⟨(value.sub margin).atLeast .zero, (value.add margin).atMost .one⟩

def contains (i : Interval) (x : Binary64) : Bool := i.lower.le x && x.le i.upper

def toTree (i : Interval) : Tree :=
  .map [("lower", .ofReal i.lower), ("upper", .ofReal i.upper)]

/-- From its two fields, or from a sequence of its two ends. -/
def ofTree? : Tree → Option Interval
  | .seq [l, u] => do return ⟨← l.real?, ← u.real?⟩
  | .map entries => do
    return ⟨← (← Entries.get? "lower" entries).real?, ← (← Entries.get? "upper" entries).real?⟩
  | _ => none

end Interval

end PhaseCert
