/-
  PhaseCert.Binary64.Basic — binary64 numbers as exact values.

  A nonnegative finite double is known by its rank, its place among all of them: rank 0 is
  zero, rank 1 the least positive one, and neighbours differ by one. The rank is also the
  word of its exponent and fraction fields. Every finite double is a whole number of
  units, one unit being 2^-1074, so exact arithmetic on doubles is arithmetic on integers.

  One NaN stands for all of them: no operation here can tell two apart.
-/

namespace PhaseCert

/-- The rank just past the last finite double. -/
def Binary64.topRank : Nat := 2047 * Nat.pow 2 52

inductive Binary64 where
  | nan
  | infinite (negative : Bool)
  | finite (negative : Bool) (rank : Fin Binary64.topRank)
  deriving DecidableEq

namespace Binary64

/-- How many units of 2^-1074 the nonnegative double of this rank holds. -/
def unitsOfRank (rank : Nat) : Nat :=
  if rank < Nat.pow 2 52 then rank
  else (Nat.pow 2 52 + rank % Nat.pow 2 52) * Nat.pow 2 (rank / Nat.pow 2 52 - 1)

/-- The double of a sign and a rank; a rank that no finite double has is an infinity. -/
def ofRank (negative : Bool) (rank : Nat) : Binary64 :=
  if h : rank < topRank then .finite negative ⟨rank, h⟩ else .infinite negative

instance : Inhabited Binary64 := ⟨ofRank false 0⟩

def zero : Binary64 := ofRank false 0

/-- 0.5, whose fields are those of exponent 1022 and no fraction. -/
def half : Binary64 := ofRank false (1022 * Nat.pow 2 52)

def one : Binary64 := ofRank false (1023 * Nat.pow 2 52)

def isNaN : Binary64 → Bool
  | .nan => true
  | _ => false

def isFinite : Binary64 → Bool
  | .finite _ _ => true
  | _ => false

/-- The exact value of a finite double in units of 2^-1074, signed. -/
def units : Binary64 → Int
  | .finite true rank => -(unitsOfRank rank : Int)
  | .finite false rank => unitsOfRank rank
  | _ => 0

/-- The signed rank: the order of doubles is the order of their places, and both zeros
    stand at place 0. -/
def place? : Binary64 → Option Int
  | .nan => none
  | .infinite true => some (-(topRank : Int))
  | .infinite false => some topRank
  | .finite true rank => some (-(rank.val : Int))
  | .finite false rank => some rank.val

/-- A NaN is neither below nor above anything. -/
def le (x y : Binary64) : Bool :=
  match x.place?, y.place? with
  | some a, some b => a ≤ b
  | _, _ => false

def lt (x y : Binary64) : Bool :=
  match x.place?, y.place? with
  | some a, some b => a < b
  | _, _ => false

def neg : Binary64 → Binary64
  | .nan => .nan
  | .infinite s => .infinite (!s)
  | .finite s rank => .finite (!s) rank

/-- The 64-bit word, if the number is not a NaN. -/
def word? : Binary64 → Option Nat
  | .nan => none
  | .infinite s => some ((if s then Nat.pow 2 63 else 0) + topRank)
  | .finite s rank => some ((if s then Nat.pow 2 63 else 0) + rank.val)

end Binary64

/-- A finite double. -/
abbrev Finite64 := { x : Binary64 // x.isFinite = true }

namespace Binary64

def finite? (x : Binary64) : Option Finite64 :=
  if h : x.isFinite = true then some ⟨x, h⟩ else none

end Binary64

end PhaseCert
