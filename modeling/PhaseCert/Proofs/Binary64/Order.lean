/-
  PhaseCert.Proofs.Binary64.Order — the exact values of doubles, and their order.

  A finite double is a whole number of units, so its value is its units times 2^-1074
  (`toRat`). Units grow with the rank (`unitsOfRank_strictMono`), and so the order of doubles,
  which compares places, is the order of their exact values (`le_iff`, `lt_iff`).
-/
import Mathlib.Algebra.Order.Field.Basic
import Mathlib.Algebra.Order.Ring.Rat
import Mathlib.Order.Monotone.Basic
import Mathlib.Tactic.Linarith
import Mathlib.Tactic.NormNum
import Mathlib.Tactic.Positivity
import Mathlib.Tactic.Ring
import PhaseCert.Binary64.Rounding

namespace PhaseCert.Binary64

/-! ## Units and ranks -/

theorem unitsOfRank_eq (r : Nat) :
    unitsOfRank r = if r < 2 ^ 52 then r else (2 ^ 52 + r % 2 ^ 52) * 2 ^ (r / 2 ^ 52 - 1) := rfl

theorem unitsOfRank_small {r : Nat} (h : r < 2 ^ 52) : unitsOfRank r = r := by
  rw [unitsOfRank_eq, if_pos h]

/-- A rank that is a shift and a significand: the significand times two to the shift. The
    significand 2^53 is the next shift's 2^52. -/
theorem unitsOfRank_shifted {s k : Nat} (h1 : 2 ^ 52 ≤ k) (h2 : k ≤ 2 ^ 53) :
    unitsOfRank (s * 2 ^ 52 + k) = k * 2 ^ s := by
  rw [unitsOfRank_eq, if_neg (by omega)]
  by_cases e : k = 2 ^ 53
  · have hm : (s * 2 ^ 52 + k) % 2 ^ 52 = 0 := by omega
    have hd : (s * 2 ^ 52 + k) / 2 ^ 52 - 1 = s + 1 := by omega
    rw [hm, hd, e, Nat.pow_succ]
    ring
  · have hm : 2 ^ 52 + (s * 2 ^ 52 + k) % 2 ^ 52 = k := by omega
    have hd : (s * 2 ^ 52 + k) / 2 ^ 52 - 1 = s := by omega
    rw [hm, hd]

/-- Every rank is a shift and a significand of 53 bits, or is below 2^52 and not shifted. -/
theorem rank_cases (r : Nat) :
    r < 2 ^ 52 ∨ ∃ s k, 2 ^ 52 ≤ k ∧ k < 2 ^ 53 ∧ r = s * 2 ^ 52 + k := by
  by_cases h : r < 2 ^ 52
  · exact Or.inl h
  · exact Or.inr ⟨r / 2 ^ 52 - 1, 2 ^ 52 + r % 2 ^ 52, by omega, by omega, by omega⟩

theorem unitsOfRank_lt_succ (r : Nat) : unitsOfRank r < unitsOfRank (r + 1) := by
  rcases rank_cases r with h | ⟨s, k, h1, h2, rfl⟩
  · rw [unitsOfRank_small h]
    by_cases e : r + 1 < 2 ^ 52
    · rw [unitsOfRank_small e]; omega
    · have : r + 1 = 0 * 2 ^ 52 + 2 ^ 52 := by omega
      rw [this, unitsOfRank_shifted (Nat.le_refl _) (by omega)]
      omega
  · rw [Nat.add_assoc, unitsOfRank_shifted h1 (by omega), unitsOfRank_shifted (by omega) (by omega)]
    exact Nat.mul_lt_mul_of_pos_right (Nat.lt_succ_self k) (by positivity)

theorem unitsOfRank_strictMono : StrictMono unitsOfRank := strictMono_nat_of_lt_succ unitsOfRank_lt_succ

/-- A significand of 53 bits, shifted by any count, is the units of a rank. -/
theorem exists_unitsOfRank {m : Nat} (hm : m ≤ 2 ^ 53) (s : Nat) : ∃ r, unitsOfRank r = m * 2 ^ s := by
  induction s generalizing m with
  | zero =>
    rw [Nat.pow_zero, Nat.mul_one]
    by_cases hsmall : m < 2 ^ 52
    · exact ⟨m, unitsOfRank_small hsmall⟩
    · exact ⟨0 * 2 ^ 52 + m, by rw [unitsOfRank_shifted (Nat.not_lt.1 hsmall) hm, Nat.pow_zero, Nat.mul_one]⟩
  | succ s ih =>
    by_cases hsmall : m < 2 ^ 52
    · -- a short significand has room for one bit of the shift
      obtain ⟨r, hr⟩ := ih (m := 2 * m) (by omega)
      refine ⟨r, ?_⟩
      rw [hr, Nat.pow_succ]
      ring
    · exact ⟨(s + 1) * 2 ^ 52 + m, unitsOfRank_shifted (Nat.not_lt.1 hsmall) hm⟩

theorem unitsOfRank_topRank : unitsOfRank topRank = 2 ^ 1024 * 2 ^ 1074 := by
  rw [show topRank = 2046 * 2 ^ 52 + 2 ^ 52 from rfl, unitsOfRank_shifted (Nat.le_refl _) (by omega), ← Nat.pow_add,
    ← Nat.pow_add, show 52 + 2046 = 1024 + 1074 from rfl]

/-- A rank whose double is less than 2^1024 is that of a finite double. -/
theorem lt_topRank {r n : Nat} (h : unitsOfRank r ≤ n * 2 ^ 1074) (hn : n < 2 ^ 1024) : r < topRank := by
  rw [← unitsOfRank_strictMono.lt_iff_lt, unitsOfRank_topRank]
  exact Nat.lt_of_le_of_lt h (Nat.mul_lt_mul_of_pos_right hn (Nat.two_pow_pos _))

@[simp] theorem unitsOfRank_zero : unitsOfRank 0 = 0 := rfl

/-! ## Places -/

/-- The units of the double at a place; places past the last finite double count on. -/
def unitsOfPlace (p : Int) : Int := if p < 0 then -(unitsOfRank p.natAbs : Int) else unitsOfRank p.natAbs

theorem unitsOfPlace_lt {p q : Int} (h : p < q) : unitsOfPlace p < unitsOfPlace q := by
  unfold unitsOfPlace
  split
  · rename_i hp
    split
    · have := unitsOfRank_strictMono (show q.natAbs < p.natAbs by omega)
      omega
    · have := unitsOfRank_strictMono (show 0 < p.natAbs by omega)
      rw [unitsOfRank_zero] at this
      omega
  · rename_i hp
    rw [if_neg (by omega)]
    have := unitsOfRank_strictMono (show p.natAbs < q.natAbs by omega)
    omega

theorem unitsOfPlace_lt_iff {p q : Int} : unitsOfPlace p < unitsOfPlace q ↔ p < q := by
  constructor
  · intro h
    rcases Int.lt_trichotomy p q with hlt | rfl | hgt
    · exact hlt
    · exact absurd h (Int.lt_irrefl _)
    · have := unitsOfPlace_lt hgt
      omega
  · exact unitsOfPlace_lt

theorem unitsOfPlace_le_iff {p q : Int} : unitsOfPlace p ≤ unitsOfPlace q ↔ p ≤ q := by
  have := unitsOfPlace_lt_iff (p := q) (q := p)
  omega

theorem place?_finite (s : Bool) (r : Fin topRank) :
    (finite s r).place? = some (if s then -(r.val : Int) else r.val) := by
  cases s <;> rfl

theorem units_finite (s : Bool) (r : Fin topRank) :
    (finite s r).units = unitsOfPlace (if s then -(r.val : Int) else r.val) := by
  unfold unitsOfPlace
  cases s
  · simp [units]
  · by_cases h : r.val = 0
    · simp [units, h]
    · simp [units, show 0 < r.val by omega]

/-- A finite double has a place, short of the infinities, and its units are those of the place. -/
theorem isFinite_iff {x : Binary64} :
    x.isFinite = true ↔ ∃ p, x.place? = some p ∧ p.natAbs < topRank ∧ x.units = unitsOfPlace p := by
  cases x with
  | nan => simp [isFinite, place?]
  | infinite s => cases s <;> simp [isFinite, place?]
  | finite s r =>
    simp only [isFinite, true_iff]
    refine ⟨_, place?_finite s r, ?_, units_finite s r⟩
    have := r.isLt
    cases s <;> simp

theorem le_eq_true {x y : Binary64} :
    x.le y = true ↔ ∃ a b, x.place? = some a ∧ y.place? = some b ∧ a ≤ b := by
  unfold le
  cases x.place? <;> cases y.place? <;> simp

theorem lt_eq_true {x y : Binary64} :
    x.lt y = true ↔ ∃ a b, x.place? = some a ∧ y.place? = some b ∧ a < b := by
  unfold lt
  cases x.place? <;> cases y.place? <;> simp

protected theorem le_trans {x y z : Binary64} (h1 : x.le y = true) (h2 : y.le z = true) : x.le z = true := by
  obtain ⟨a, b, ha, hb, hab⟩ := le_eq_true.1 h1
  obtain ⟨b', c, hb', hc, hbc⟩ := le_eq_true.1 h2
  rw [hb, Option.some.injEq] at hb'
  exact le_eq_true.2 ⟨a, c, ha, hc, by omega⟩

protected theorem le_of_lt {x y : Binary64} (h : x.lt y = true) : x.le y = true := by
  obtain ⟨a, b, ha, hb, hab⟩ := lt_eq_true.1 h
  exact le_eq_true.2 ⟨a, b, ha, hb, by omega⟩

protected theorem not_le_of_lt {x y : Binary64} (h : x.lt y = true) : y.le x ≠ true := by
  intro hle
  obtain ⟨a, b, ha, hb, hab⟩ := lt_eq_true.1 h
  obtain ⟨b', a', hb', ha', hba⟩ := le_eq_true.1 hle
  rw [hb, Option.some.injEq] at hb'
  rw [ha, Option.some.injEq] at ha'
  omega

/-- A number has a place, at most that of an infinity. -/
theorem exists_place {x : Binary64} (h : x.isNaN = false) : ∃ p, x.place? = some p ∧ p.natAbs ≤ topRank := by
  cases x with
  | nan => cases h
  | infinite s => cases s <;> exact ⟨_, rfl, by simp⟩
  | finite s r =>
    refine ⟨_, place?_finite s r, ?_⟩
    cases s <;> simp

theorem isNaN_of_place {x : Binary64} {p : Int} (h : x.place? = some p) : x.isNaN = false := by
  cases x with
  | nan => cases h
  | infinite s => rfl
  | finite s r => rfl

theorem isNaN_of_isFinite {x : Binary64} (h : x.isFinite = true) : x.isNaN = false := by
  cases x with
  | nan => cases h
  | infinite s => rfl
  | finite s r => rfl

theorem not_nan_of_le {x y : Binary64} (h : x.le y = true) : x.isNaN = false ∧ y.isNaN = false := by
  obtain ⟨a, b, ha, hb, -⟩ := le_eq_true.1 h
  exact ⟨isNaN_of_place ha, isNaN_of_place hb⟩

/-- Of two numbers one is at most the other. -/
protected theorem le_of_not_lt {x y : Binary64} (hx : x.isNaN = false) (hy : y.isNaN = false) (h : x.lt y = false) :
    y.le x = true := by
  obtain ⟨a, ha, -⟩ := exists_place hx
  obtain ⟨b, hb, -⟩ := exists_place hy
  refine le_eq_true.2 ⟨b, a, hb, ha, ?_⟩
  simp only [lt, ha, hb, decide_eq_false_iff_not] at h
  omega

theorem le_infinity {x : Binary64} (h : x.isNaN = false) : x.le (.infinite false) = true := by
  obtain ⟨a, ha, hle⟩ := exists_place h
  exact le_eq_true.2 ⟨a, topRank, ha, rfl, by omega⟩

theorem negative_infinity_le {x : Binary64} (h : x.isNaN = false) : (infinite true).le x = true := by
  obtain ⟨a, ha, hle⟩ := exists_place h
  exact le_eq_true.2 ⟨-(topRank : Int), a, rfl, ha, by omega⟩

/-- A number is finite or one of the infinities. -/
theorem number_cases {x : Binary64} (h : x.isNaN = false) :
    x = .infinite true ∨ x.isFinite = true ∨ x = .infinite false := by
  cases x with
  | nan => cases h
  | infinite s => cases s <;> simp
  | finite s r => simp [isFinite]

theorem not_infinity_le {x : Binary64} (h : x.isFinite = true) : (infinite false).le x ≠ true := by
  intro hle
  obtain ⟨p, hp, hlt, -⟩ := isFinite_iff.1 h
  obtain ⟨a, b, ha, hb, hab⟩ := le_eq_true.1 hle
  rw [hp, Option.some.injEq] at hb
  simp only [place?, Option.some.injEq] at ha
  omega

theorem not_le_negative_infinity {x : Binary64} (h : x.isFinite = true) : x.le (infinite true) ≠ true := by
  intro hle
  obtain ⟨p, hp, hlt, -⟩ := isFinite_iff.1 h
  obtain ⟨a, b, ha, hb, hab⟩ := le_eq_true.1 hle
  rw [hp, Option.some.injEq] at ha
  simp only [place?, Option.some.injEq] at hb
  omega

theorem place?_neg (x : Binary64) : x.neg.place? = x.place?.map (- ·) := by
  cases x with
  | nan => rfl
  | infinite s => cases s <;> simp [neg, place?]
  | finite s r => cases s <;> simp [neg, place?]

/-- Opposite numbers are in the opposite order. -/
protected theorem neg_le_neg {x y : Binary64} (h : x.le y = true) : y.neg.le x.neg = true := by
  obtain ⟨a, b, ha, hb, hab⟩ := le_eq_true.1 h
  refine le_eq_true.2 ⟨-b, -a, ?_, ?_, by omega⟩
  · rw [place?_neg, hb, Option.map_some]
  · rw [place?_neg, ha, Option.map_some]

/-- What lies between two finite doubles is finite. -/
theorem isFinite_of_between {x y z : Binary64} (hx : x.isFinite = true) (hz : z.isFinite = true)
    (h1 : x.le y = true) (h2 : y.le z = true) : y.isFinite = true := by
  obtain ⟨a, ha, ha', -⟩ := isFinite_iff.1 hx
  obtain ⟨c, hc, hc', -⟩ := isFinite_iff.1 hz
  obtain ⟨a', b, e1, hb, hab⟩ := le_eq_true.1 h1
  obtain ⟨b', c', e2, e3, hbc⟩ := le_eq_true.1 h2
  rw [ha, Option.some.injEq] at e1
  rw [hc, Option.some.injEq] at e3
  rw [hb, Option.some.injEq] at e2
  cases y with
  | nan => cases hb
  | infinite s => cases s <;> simp [place?] at hb <;> omega
  | finite s r => rfl

/-- On finite doubles the order is that of the units. -/
theorem le_iff_units {x y : Binary64} (hx : x.isFinite = true) (hy : y.isFinite = true) :
    x.le y = true ↔ x.units ≤ y.units := by
  obtain ⟨a, ha, -, hxa⟩ := isFinite_iff.1 hx
  obtain ⟨b, hb, -, hyb⟩ := isFinite_iff.1 hy
  rw [hxa, hyb, unitsOfPlace_le_iff]
  simp [le, ha, hb]

theorem lt_iff_units {x y : Binary64} (hx : x.isFinite = true) (hy : y.isFinite = true) :
    x.lt y = true ↔ x.units < y.units := by
  obtain ⟨a, ha, -, hxa⟩ := isFinite_iff.1 hx
  obtain ⟨b, hb, -, hyb⟩ := isFinite_iff.1 hy
  rw [hxa, hyb, unitsOfPlace_lt_iff]
  simp [lt, ha, hb]

/-! ## Exact values -/

/-- The exact value of a finite double. -/
def toRat (x : Binary64) : ℚ := x.units / 2 ^ 1074

/-- Is this number at most what the double stands for? A positive infinity has no bound. -/
def Reaches (x : Binary64) (q : ℚ) : Prop :=
  match x with
  | .nan => False
  | .infinite negative => negative = false
  | .finite _ _ => q ≤ x.toRat

theorem toRat_le_toRat {x y : Binary64} : x.toRat ≤ y.toRat ↔ x.units ≤ y.units := by
  unfold toRat
  rw [div_le_div_iff_of_pos_right (by positivity), Int.cast_le]

theorem toRat_lt_toRat {x y : Binary64} : x.toRat < y.toRat ↔ x.units < y.units := by
  rw [← not_le, ← not_le, toRat_le_toRat]

protected theorem le_iff {x y : Binary64} (hx : x.isFinite = true) (hy : y.isFinite = true) :
    x.le y = true ↔ x.toRat ≤ y.toRat := by
  rw [le_iff_units hx hy, toRat_le_toRat]

protected theorem lt_iff {x y : Binary64} (hx : x.isFinite = true) (hy : y.isFinite = true) :
    x.lt y = true ↔ x.toRat < y.toRat := by
  rw [lt_iff_units hx hy, toRat_lt_toRat]

/-! ## Constants -/

theorem topRank_pos : 0 < topRank := by decide

theorem ofRank_eq (s : Bool) {r : Nat} (h : r < topRank) : ofRank s r = .finite s ⟨r, h⟩ := dif_pos h

theorem isFinite_ofRank_iff {s : Bool} {r : Nat} : (ofRank s r).isFinite = true ↔ r < topRank := by
  constructor
  · intro h
    by_contra hr
    rw [ofRank, dif_neg hr] at h
    cases h
  · intro h
    rw [ofRank_eq s h]
    rfl

theorem isFinite_ofRank {s : Bool} {r : Nat} (h : r < topRank) : (ofRank s r).isFinite = true :=
  isFinite_ofRank_iff.2 h

theorem zero_eq : zero = .finite false ⟨0, topRank_pos⟩ := ofRank_eq false topRank_pos

theorem zero_isFinite : zero.isFinite = true := isFinite_ofRank topRank_pos

theorem half_isFinite : half.isFinite = true := isFinite_ofRank (by decide)

theorem one_isFinite : one.isFinite = true := isFinite_ofRank (by decide)

@[simp] theorem toRat_zero : zero.toRat = 0 := by
  rw [zero_eq]
  simp [toRat, units]

theorem units_one : one.units = 2 ^ 1074 := by
  have hr : 1023 * Nat.pow 2 52 = 1022 * 2 ^ 52 + 2 ^ 52 := by decide
  rw [one, ofRank_eq false (by decide)]
  show (unitsOfRank (1023 * Nat.pow 2 52) : Int) = 2 ^ 1074
  rw [hr, unitsOfRank_shifted (Nat.le_refl _) (by omega), ← Nat.pow_add, Nat.cast_pow]
  rfl

@[simp] theorem toRat_one : one.toRat = 1 := by
  rw [toRat, units_one, Int.cast_pow, Int.cast_ofNat, div_self (by positivity)]

end PhaseCert.Binary64
