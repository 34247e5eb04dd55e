/-
  PhaseCert.Proofs.Decimal.Shortest — the digits chosen for a double read back to it.

  Every decimal that the search gives lies in the interval of the double: a point of a grid is
  taken only if it does (`onGrid_has`), and where no grid is fine enough the exact decimal of the
  double is taken. What lies in the interval rounds to the double (`roundsTo_of_has`), and so the
  shortest decimal does (`toBinary64_shortest`).
-/
import PhaseCert.Decimal.Shortest
import PhaseCert.Proofs.Decimal.Rounding

namespace PhaseCert

open Binary64 Decimal

namespace Shortest

/-- The interval of the search is the interval of what rounds to the double. -/
theorem roundsTo_of_has {r n d : Nat} (h : (Range.ofRank r).has (2 * n) d = true) : RoundsTo r n d := by
  have hlower : (Range.ofRank r).lower = unitsOfRank (r - 1) + unitsOfRank r := rfl
  have hupper : (Range.ofRank r).upper = unitsOfRank r + unitsOfRank (r + 1) := rfl
  have hclosed : (Range.ofRank r).closed = decide (r % 2 = 0) := rfl
  simp only [Range.has, hlower, hupper, hclosed, decide_eq_true_eq] at h
  by_cases hr : r % 2 = 0
  · rw [if_pos hr, Bool.and_eq_true, decide_eq_true_eq, decide_eq_true_eq] at h
    exact ⟨fun _ => h.1, fun _ _ => hr, h.2, fun _ => hr⟩
  · rw [if_neg hr, Bool.and_eq_true, decide_eq_true_eq, decide_eq_true_eq] at h
    constructor
    · intro _
      omega
    · intro _ he
      omega
    · omega
    · intro he
      omega

theorem onGrid_has {r : Range} {e : Int} {d : Decimal} (h : onGrid r e = some d) :
    d.exponent = e ∧ r.has (d.coefficient * (step e).1) (step e).2 = true := by
  simp only [onGrid] at h
  split at h
  · rename_i hbelow habove
    split at h
    · cases h
      exact ⟨rfl, hbelow⟩
    · cases h
      exact ⟨rfl, habove⟩
  · rename_i hbelow _
    cases h
    exact ⟨rfl, hbelow⟩
  · rename_i _ habove
    cases h
    exact ⟨rfl, habove⟩
  · cases h

/-- A multiple of a grid step as a quotient, in halves of a unit. -/
theorem step_quotient (d : Decimal) :
    d.coefficient * (step d.exponent).1 = 2 * (d.quotient.1 * 2 ^ 1074) ∧ (step d.exponent).2 = d.quotient.2 := by
  have hhalf : Nat.pow 2 1075 = 2 * 2 ^ 1074 := by
    rw [Nat.pow_eq, ← Nat.pow_succ']
  obtain ⟨c, k⟩ := d
  cases k with
  | ofNat e =>
    simp only [step, quotient, hhalf, Nat.pow_eq]
    refine ⟨?_, trivial⟩
    rw [← Nat.mul_assoc, Nat.mul_left_comm]
  | negSucc e =>
    simp only [step, quotient, hhalf, Nat.pow_eq]
    refine ⟨?_, trivial⟩
    rw [Nat.mul_left_comm]

theorem roundsTo_onGrid {r : Nat} {e : Int} {d : Decimal} (h : onGrid (Range.ofRank r) e = some d) :
    RoundsTo r (d.quotient.1 * 2 ^ 1074) d.quotient.2 := by
  obtain ⟨rfl, hhas⟩ := onGrid_has h
  obtain ⟨h1, h2⟩ := step_quotient d
  rw [h1, h2] at hhas
  exact roundsTo_of_has hhas

end Shortest

/-- The exact decimal of a double rounds to it. -/
theorem roundsTo_exact (r : Nat) :
    RoundsTo r ((Decimal.mk (unitsOfRank r * Nat.pow 5 1074) (-1074)).quotient.1 * 2 ^ 1074)
      (Decimal.mk (unitsOfRank r * Nat.pow 5 1074) (-1074)).quotient.2 := by
  have hq : (Decimal.mk (unitsOfRank r * Nat.pow 5 1074) (-1074)).quotient = (unitsOfRank r * 5 ^ 1074, 10 ^ 1074) := rfl
  have hd : 0 < 10 ^ 1074 := Nat.pow_pos (by decide)
  have hten : 5 ^ 1074 * 2 ^ 1074 = 10 ^ 1074 := by rw [← Nat.mul_pow]
  rw [hq, ← nearestRank_eq_iff hd, Nat.mul_assoc, hten, nearestRank_units r hd]

/-- The shortest decimal of a double is read as that double. -/
theorem toBinary64_shortest (s : Bool) (r : Fin topRank) : (Decimal.shortest r).toBinary64 s = .finite s r := by
  by_cases h0 : r.val = 0
  · rw [Decimal.shortest, if_pos h0]
    have hr : r = ⟨0, by decide⟩ := Fin.ext h0
    rw [hr]
    rfl
  · apply toBinary64_of_roundsTo
    rw [Decimal.shortest, if_neg h0]
    simp only
    generalize hf : (List.range 22).findSome? _ = found
    cases found with
    | none => exact roundsTo_exact r
    | some d =>
      obtain ⟨i, -, hi⟩ := List.exists_of_findSome?_eq_some hf
      exact Shortest.roundsTo_onGrid hi

end PhaseCert
