/-
  PhaseCert.Proofs.Binary64.Nearest — rounding to the nearest double.

  `roundDiv` gives a nearest integer to a quotient, the even one of two (`roundDiv_near`,
  `roundDiv_tie`), and a larger quotient never a smaller integer (`roundDiv_mono`). The same is
  carried to `nearestRank`: it fixes every double (`nearestRank_units`), keeps order
  (`nearestRank_mono`) and is off by at most half a grid step (`nearestRank_near`). A sum of two
  finite doubles is the double nearest to the exact sum (`place?_add`), so a double that bounds
  the exact sum bounds the rounded one (`add_le`, `le_add`), and sums are in the order of their
  terms, infinities included (`add_le_add`). Only two negative zeros add up to the negative zero
  (`add_eq_negative_zero`).
-/
import PhaseCert.Proofs.Binary64.Order

namespace PhaseCert

/-! ## Quotients rounded to integers -/

/-- Rounded down with at most half a step to make up, or rounded up with at least half; at
    half a step the result is even. -/
theorem roundDiv_cases {d : Nat} (hd : 0 < d) (n : Nat) :
    (roundDiv n d * d ≤ n ∧ 2 * n ≤ 2 * (roundDiv n d * d) + d ∧
      (2 * n = 2 * (roundDiv n d * d) + d → roundDiv n d % 2 = 0)) ∨
    (n ≤ roundDiv n d * d ∧ 2 * (roundDiv n d * d) ≤ 2 * n + d ∧
      (2 * (roundDiv n d * d) = 2 * n + d → roundDiv n d % 2 = 0)) := by
  have hq : n / d * d + n % d = n := Nat.div_add_mod' n d
  have hr := Nat.mod_lt n hd
  unfold roundDiv
  simp only
  split
  · rename_i h
    refine Or.inl ⟨by omega, by omega, fun e => ?_⟩
    rcases h with h | h
    · omega
    · exact h.2
  · rename_i h
    rw [not_or, not_and] at h
    have hs : (n / d + 1) * d = n / d * d + d := Nat.succ_mul _ _
    refine Or.inr ⟨by omega, by omega, fun e => ?_⟩
    have := h.2 (by omega)
    omega

theorem roundDiv_near {d : Nat} (hd : 0 < d) (n : Nat) :
    2 * (roundDiv n d * d) ≤ 2 * n + d ∧ 2 * n ≤ 2 * (roundDiv n d * d) + d := by
  rcases roundDiv_cases hd n with ⟨h1, h2, -⟩ | ⟨h1, h2, -⟩
  · exact ⟨by omega, h2⟩
  · exact ⟨h2, by omega⟩

/-- Halfway between two integers the even one is taken. -/
theorem roundDiv_tie {d : Nat} (hd : 0 < d) {n : Nat}
    (h : 2 * (roundDiv n d * d) = 2 * n + d ∨ 2 * n = 2 * (roundDiv n d * d) + d) :
    roundDiv n d % 2 = 0 := by
  rcases roundDiv_cases hd n with ⟨h1, -, h2⟩ | ⟨h1, -, h2⟩
  · exact h2 (by omega)
  · exact h2 (by omega)

/-- A larger quotient is never rounded to a smaller integer. -/
theorem roundDiv_mono {n d n' d' : Nat} (hd : 0 < d) (hd' : 0 < d') (h : n * d' ≤ n' * d) :
    roundDiv n d ≤ roundDiv n' d' := by
  by_contra hlt
  have hk : roundDiv n' d' + 1 ≤ roundDiv n d := by omega
  obtain ⟨h1, -⟩ := roundDiv_near hd n
  obtain ⟨-, h2⟩ := roundDiv_near hd' n'
  -- over the common denominator both are within half a step of the same number
  have e1 : 2 * (roundDiv n d * d) * d' ≤ (2 * n + d) * d' := Nat.mul_le_mul_right d' h1
  have e2 : 2 * n' * d ≤ (2 * (roundDiv n' d' * d') + d') * d := Nat.mul_le_mul_right d h2
  have e3 : (roundDiv n' d' + 1) * (d * d') ≤ roundDiv n d * (d * d') := Nat.mul_le_mul_right _ hk
  have hdd : 0 < d * d' := Nat.mul_pos hd hd'
  have hkk : roundDiv n d = roundDiv n' d' + 1 := by
    by_contra hne
    have : (roundDiv n' d' + 2) * (d * d') ≤ roundDiv n d * (d * d') := Nat.mul_le_mul_right _ (by omega)
    nlinarith
  -- so both are ties, and two neighbours would both be even
  have t1 : 2 * (roundDiv n d * d) = 2 * n + d := by
    refine Nat.le_antisymm h1 (Nat.le_of_mul_le_mul_right ?_ hd')
    rw [hkk] at e1 e3 ⊢
    nlinarith
  have t2 : 2 * n' = 2 * (roundDiv n' d' * d') + d' := by
    refine Nat.le_antisymm h2 (Nat.le_of_mul_le_mul_right ?_ hd)
    rw [hkk] at e1 e3
    nlinarith
  have := roundDiv_tie hd (Or.inl t1)
  have := roundDiv_tie hd' (Or.inr t2)
  omega

@[simp] theorem roundDiv_mul (k : Nat) {d : Nat} (hd : 0 < d) : roundDiv (k * d) d = k := by
  unfold roundDiv
  simp [Nat.mul_div_cancel _ hd, hd]

theorem le_roundDiv {k n d : Nat} (hd : 0 < d) (h : k * d ≤ n) : k ≤ roundDiv n d := by
  have := roundDiv_mono hd hd (Nat.mul_le_mul_right d h)
  rwa [roundDiv_mul k hd] at this

theorem roundDiv_le {k n d : Nat} (hd : 0 < d) (h : n ≤ k * d) : roundDiv n d ≤ k := by
  have := roundDiv_mono hd hd (Nat.mul_le_mul_right d h)
  rwa [roundDiv_mul k hd] at this

namespace Binary64

/-! ## Quotients rounded to ranks -/

/-- How far the significand of `n / d` is shifted. -/
def shiftOf (n d : Nat) : Nat := (n / d).log2 - 52

theorem nearestRank_eq (n d : Nat) :
    nearestRank n d = shiftOf n d * 2 ^ 52 + roundDiv n (d * 2 ^ shiftOf n d) := rfl

theorem lt_of_shiftOf {n d : Nat} (hd : 0 < d) : n < 2 ^ 53 * (d * 2 ^ shiftOf n d) := by
  have h : n / d < 2 ^ (53 + shiftOf n d) := by
    refine Nat.lt_of_lt_of_le Nat.lt_log2_self (Nat.pow_le_pow_right (by omega) ?_)
    unfold shiftOf
    omega
  rw [Nat.div_lt_iff_lt_mul hd, Nat.pow_add] at h
  calc n < 2 ^ 53 * 2 ^ shiftOf n d * d := h
    _ = 2 ^ 53 * (d * 2 ^ shiftOf n d) := by ring

theorem le_of_shiftOf {n d : Nat} (hd : 0 < d) (h : shiftOf n d ≠ 0) : 2 ^ 52 * (d * 2 ^ shiftOf n d) ≤ n := by
  have hl : (n / d).log2 = 52 + shiftOf n d := by
    unfold shiftOf at h ⊢
    omega
  have hn : n / d ≠ 0 := by
    intro e
    rw [e, Nat.log2_zero] at hl
    omega
  have := Nat.log2_self_le hn
  rw [hl, Nat.le_div_iff_mul_le hd, Nat.pow_add] at this
  calc 2 ^ 52 * (d * 2 ^ shiftOf n d) = 2 ^ 52 * 2 ^ shiftOf n d * d := by ring
    _ ≤ n := this

/-- The rounded significand has at most 53 bits, or is 2^53. -/
theorem significand_le {n d : Nat} (hd : 0 < d) : roundDiv n (d * 2 ^ shiftOf n d) ≤ 2 ^ 53 :=
  roundDiv_le (by positivity) (Nat.le_of_lt (lt_of_shiftOf hd))

theorem le_significand {n d : Nat} (hd : 0 < d) (h : shiftOf n d ≠ 0) :
    2 ^ 52 ≤ roundDiv n (d * 2 ^ shiftOf n d) :=
  le_roundDiv (by positivity) (le_of_shiftOf hd h)

theorem unitsOfRank_nearestRank {n d : Nat} (hd : 0 < d) :
    unitsOfRank (nearestRank n d) = roundDiv n (d * 2 ^ shiftOf n d) * 2 ^ shiftOf n d := by
  rw [nearestRank_eq]
  have h1 := significand_le (n := n) hd
  by_cases h : 2 ^ 52 ≤ roundDiv n (d * 2 ^ shiftOf n d)
  · rw [unitsOfRank_shifted h h1]
  · have hs : shiftOf n d = 0 := by
      by_contra hne
      exact h (le_significand hd hne)
    simp only [hs, Nat.pow_zero, Nat.mul_one, Nat.zero_mul, Nat.zero_add] at h ⊢
    exact unitsOfRank_small (by omega)

/-- The nearest double is off by at most half a step of its grid. -/
theorem nearestRank_near {n d : Nat} (hd : 0 < d) :
    2 * (unitsOfRank (nearestRank n d) * d) ≤ 2 * n + d * 2 ^ shiftOf n d ∧
      2 * n ≤ 2 * (unitsOfRank (nearestRank n d) * d) + d * 2 ^ shiftOf n d := by
  have h := roundDiv_near (show 0 < d * 2 ^ shiftOf n d by positivity) n
  have e : unitsOfRank (nearestRank n d) * d
      = roundDiv n (d * 2 ^ shiftOf n d) * (d * 2 ^ shiftOf n d) := by
    rw [unitsOfRank_nearestRank hd]
    ring
  rw [e]
  exact h

theorem shiftOf_mono {n d n' d' : Nat} (hd : 0 < d) (hd' : 0 < d') (h : n * d' ≤ n' * d) :
    shiftOf n d ≤ shiftOf n' d' := by
  by_contra hlt
  have h1 := le_of_shiftOf (n := n) hd (by omega)
  have h2 := lt_of_shiftOf (n := n') hd'
  -- the larger quotient would be less than 2^53 of a step that is at most half as long
  have hp : 2 * 2 ^ shiftOf n' d' ≤ 2 ^ shiftOf n d := by
    rw [← Nat.pow_succ']
    exact Nat.pow_le_pow_right (by omega) (by omega)
  have e : 2 ^ 53 * (d' * 2 ^ shiftOf n' d') * d ≤ 2 ^ 52 * (d * 2 ^ shiftOf n d) * d' := by
    calc 2 ^ 53 * (d' * 2 ^ shiftOf n' d') * d = 2 ^ 52 * d * d' * (2 * 2 ^ shiftOf n' d') := by ring
      _ ≤ 2 ^ 52 * d * d' * 2 ^ shiftOf n d := Nat.mul_le_mul_left _ hp
      _ = 2 ^ 52 * (d * 2 ^ shiftOf n d) * d' := by ring
  have h3 : n' * d < 2 ^ 53 * (d' * 2 ^ shiftOf n' d') * d := Nat.mul_lt_mul_of_pos_right h2 hd
  have h4 : 2 ^ 52 * (d * 2 ^ shiftOf n d) * d' ≤ n * d' := Nat.mul_le_mul_right d' h1
  omega

theorem nearestRank_mono {n d n' d' : Nat} (hd : 0 < d) (hd' : 0 < d') (h : n * d' ≤ n' * d) :
    nearestRank n d ≤ nearestRank n' d' := by
  rw [nearestRank_eq, nearestRank_eq]
  rcases Nat.eq_or_lt_of_le (shiftOf_mono hd hd' h) with e | hlt
  · -- one grid: the significands are in order
    rw [e]
    have hm : n * (d' * 2 ^ shiftOf n' d') ≤ n' * (d * 2 ^ shiftOf n' d') := by
      calc n * (d' * 2 ^ shiftOf n' d') = n * d' * 2 ^ shiftOf n' d' := by ring
        _ ≤ n' * d * 2 ^ shiftOf n' d' := Nat.mul_le_mul_right _ h
        _ = n' * (d * 2 ^ shiftOf n' d') := by ring
    have := roundDiv_mono (show 0 < d * 2 ^ shiftOf n' d' by positivity) (by positivity) hm
    omega
  · -- two grids: the first ends where the second begins
    have h1 := significand_le (n := n) hd
    have h2 := le_significand (n := n') hd' (by omega)
    have : (shiftOf n d + 1) * 2 ^ 52 ≤ shiftOf n' d' * 2 ^ 52 := Nat.mul_le_mul_right _ hlt
    omega

/-- A double is its own nearest double. -/
theorem nearestRank_units (r : Nat) {d : Nat} (hd : 0 < d) : nearestRank (unitsOfRank r * d) d = r := by
  rw [nearestRank_eq]
  rcases rank_cases r with h | ⟨s, k, h1, h2, rfl⟩
  · have hs : shiftOf (r * d) d = 0 := by
      unfold shiftOf
      rw [Nat.mul_div_cancel _ hd]
      by_cases h0 : r = 0
      · rw [h0, Nat.log2_zero]
      · have := (Nat.log2_lt h0).2 h
        omega
    rw [unitsOfRank_small h, hs, Nat.pow_zero, Nat.mul_one, roundDiv_mul r hd, Nat.zero_mul, Nat.zero_add]
  · have hk : 0 < k := by omega
    have hl : (k * 2 ^ s).log2 = 52 + s := by
      rw [Nat.log2_eq_iff (by positivity)]
      constructor
      · rw [Nat.pow_add]
        exact Nat.mul_le_mul_right _ h1
      · rw [show 52 + s + 1 = 53 + s by omega, Nat.pow_add]
        exact Nat.mul_lt_mul_of_pos_right h2 (by positivity)
    have hs : shiftOf (k * 2 ^ s * d) d = s := by
      unfold shiftOf
      rw [Nat.mul_div_cancel _ hd, hl]
      omega
    rw [unitsOfRank_shifted h1 (by omega), hs, show k * 2 ^ s * d = k * (d * 2 ^ s) by ring,
      roundDiv_mul k (by positivity)]

theorem nearestRank_zero {d : Nat} (hd : 0 < d) : nearestRank 0 d = 0 := by
  have := nearestRank_units 0 hd
  rwa [unitsOfRank_zero, Nat.zero_mul] at this

/-- A quotient that is at most a double is rounded to at most that double. -/
theorem nearestRank_le {n d r : Nat} (hd : 0 < d) (h : n ≤ unitsOfRank r * d) : nearestRank n d ≤ r := by
  have := nearestRank_mono hd hd (Nat.mul_le_mul_right d h)
  rwa [nearestRank_units r hd] at this

/-! ## Integers of units rounded to doubles -/

/-- The place of the double of a sign and a rank. -/
def placeOf (negative : Bool) (r : Nat) : Int :=
  if negative then -(Nat.min r topRank : Int) else Nat.min r topRank

@[simp] theorem placeOf_zero (s : Bool) : placeOf s 0 = 0 := by
  unfold placeOf
  rw [show Nat.min 0 topRank = 0 from Nat.zero_min _]
  simp

theorem place?_ofRank (s : Bool) (r : Nat) : (ofRank s r).place? = some (placeOf s r) := by
  unfold ofRank placeOf
  split
  · rename_i h
    rw [place?_finite, show Nat.min r topRank = r from Nat.min_eq_left (Nat.le_of_lt h)]
  · rename_i h
    rw [show Nat.min r topRank = topRank from Nat.min_eq_right (Nat.le_of_not_lt h)]
    cases s <;> rfl

/-- The place of the double nearest to so many units. -/
def nearestPlace (z : Int) : Int := placeOf (z < 0) (nearestRank z.natAbs 1)

/-- The sign given to a zero does not change its place. -/
theorem place?_ofUnits (z : Int) (s : Bool) (hs : z ≠ 0 → s = decide (z < 0)) :
    (ofUnits s z.natAbs 1).place? = some (nearestPlace z) := by
  rw [ofUnits, place?_ofRank]
  by_cases h0 : z = 0
  · rw [nearestPlace, h0, Int.natAbs_zero, nearestRank_zero Nat.one_pos, placeOf_zero, placeOf_zero]
  · rw [hs h0, nearestPlace]

theorem nearestPlace_mono {z w : Int} (h : z ≤ w) : nearestPlace z ≤ nearestPlace w := by
  have hmin : ∀ {a b : Nat}, a ≤ b → Nat.min a topRank ≤ Nat.min b topRank := fun h =>
    Nat.le_min.2 ⟨Nat.le_trans (Nat.min_le_left _ _) h, Nat.min_le_right _ _⟩
  unfold nearestPlace placeOf
  by_cases hz : z < 0
  · rw [if_pos (by simpa using hz)]
    by_cases hw : w < 0
    · rw [if_pos (by simpa using hw)]
      have hr : nearestRank w.natAbs 1 ≤ nearestRank z.natAbs 1 := nearestRank_mono Nat.one_pos Nat.one_pos (by omega)
      have := hmin hr
      omega
    · rw [if_neg (by simpa using hw)]
      omega
  · rw [if_neg (by simpa using hz), if_neg (by simp; omega)]
    have hr : nearestRank z.natAbs 1 ≤ nearestRank w.natAbs 1 := nearestRank_mono Nat.one_pos Nat.one_pos (by omega)
    have := hmin hr
    omega

/-- The units of a finite double are rounded to that double. -/
theorem nearestPlace_units {x : Binary64} (hx : x.isFinite = true) : x.place? = some (nearestPlace x.units) := by
  obtain ⟨p, hp, hlt, hu⟩ := isFinite_iff.1 hx
  have hr := nearestRank_units p.natAbs Nat.one_pos
  rw [Nat.mul_one] at hr
  have hn : x.units.natAbs = unitsOfRank p.natAbs := by
    rw [hu, unitsOfPlace]
    split <;> simp
  have hz : x.units < 0 ↔ p < 0 := by
    have := unitsOfPlace_lt_iff (p := p) (q := 0)
    rw [hu]
    simpa [unitsOfPlace] using this
  rw [hp, nearestPlace, hn, hr, placeOf, show Nat.min p.natAbs topRank = p.natAbs from Nat.min_eq_left (Nat.le_of_lt hlt)]
  by_cases h : p < 0
  · rw [if_pos (by simpa using hz.2 h)]; congr 1; omega
  · rw [if_neg (by simpa using fun h' => h (hz.1 h'))]; congr 1; omega

/-! ## Sums and differences -/

/-- The sum of two finite doubles is the double nearest to their exact sum. -/
theorem place?_add {x y : Binary64} (hx : x.isFinite = true) (hy : y.isFinite = true) :
    (x.add y).place? = some (nearestPlace (x.units + y.units)) := by
  cases x with
  | nan => cases hx
  | infinite s => cases hx
  | finite s a =>
    cases y with
    | nan => cases hy
    | infinite t => cases hy
    | finite t b => exact place?_ofUnits _ _ fun h => by rw [if_neg h]

theorem add_le {x y z : Binary64} (hx : x.isFinite = true) (hy : y.isFinite = true) (hz : z.isFinite = true)
    (h : x.units + y.units ≤ z.units) : (x.add y).le z = true :=
  le_eq_true.2 ⟨_, _, place?_add hx hy, nearestPlace_units hz, nearestPlace_mono h⟩

theorem le_add {x y z : Binary64} (hx : x.isFinite = true) (hy : y.isFinite = true) (hz : z.isFinite = true)
    (h : z.units ≤ x.units + y.units) : z.le (x.add y) = true :=
  le_eq_true.2 ⟨_, _, nearestPlace_units hz, place?_add hx hy, nearestPlace_mono h⟩

@[simp] theorem isFinite_neg (x : Binary64) : x.neg.isFinite = x.isFinite := by cases x <;> rfl

@[simp] theorem units_neg (x : Binary64) : x.neg.units = -x.units := by
  cases x with
  | nan => rfl
  | infinite s => rfl
  | finite s r => cases s <;> simp [neg, units]

@[simp] theorem toRat_neg (x : Binary64) : x.neg.toRat = -x.toRat := by
  rw [toRat, units_neg, Int.cast_neg, neg_div, toRat]

theorem sub_le {x y z : Binary64} (hx : x.isFinite = true) (hy : y.isFinite = true) (hz : z.isFinite = true)
    (h : x.units - y.units ≤ z.units) : (x.sub y).le z = true :=
  add_le hx (by simpa using hy) hz (by rw [units_neg]; omega)

theorem add_infinite {x : Binary64} (hx : x.isFinite = true) (s : Bool) : x.add (.infinite s) = .infinite s := by
  cases x with
  | nan => cases hx
  | infinite t => cases hx
  | finite t r => rfl

protected theorem add_comm (x y : Binary64) : x.add y = y.add x := by
  cases x with
  | nan => cases y <;> rfl
  | infinite s =>
    cases y with
    | nan => rfl
    | infinite t => cases s <;> cases t <;> rfl
    | finite t b => rfl
  | finite s a =>
    cases y with
    | nan => rfl
    | infinite t => rfl
    | finite t b => simp only [add, Int.add_comm (units (finite s a)), Bool.and_comm s]

/-- A finite double and a number have a sum. -/
theorem add_isNaN {x y : Binary64} (hx : x.isFinite = true) (hy : y.isNaN = false) : (x.add y).isNaN = false := by
  by_cases hf : y.isFinite = true
  · exact isNaN_of_place (place?_add hx hf)
  cases y with
  | nan => cases hy
  | infinite s =>
    rw [add_infinite hx]
    rfl
  | finite s r => exact absurd rfl hf

/-- Sums are in the order of their terms. The second terms may be infinite. -/
protected theorem add_le_add {x x' y y' : Binary64} (hx : x.isFinite = true) (hx' : x'.isFinite = true)
    (h : x.le x' = true) (hy : y.le y' = true) : (x.add y).le (x'.add y') = true := by
  obtain ⟨hn, hn'⟩ := not_nan_of_le hy
  rcases number_cases hn with rfl | hf | rfl
  · rw [add_infinite hx]
    exact negative_infinity_le (add_isNaN hx' hn')
  · rcases number_cases hn' with rfl | hf' | rfl
    · exact absurd hy (not_le_negative_infinity hf)
    · rw [le_iff_units hx hx'] at h
      rw [le_iff_units hf hf'] at hy
      exact le_eq_true.2 ⟨_, _, place?_add hx hf, place?_add hx' hf', nearestPlace_mono (by omega)⟩
    · rw [add_infinite hx']
      exact le_infinity (add_isNaN hx hn)
  · rcases number_cases hn' with rfl | hf' | rfl
    · exact absurd hy (by decide)
    · exact absurd hy (not_infinity_le hf')
    · rw [add_infinite hx, add_infinite hx']
      exact le_infinity rfl

/-! ## Signs of zero -/

theorem negative_zero_eq : zero.neg = .finite true ⟨0, topRank_pos⟩ := by
  rw [zero_eq]
  rfl

@[simp] theorem place?_zero : zero.place? = some 0 := by
  rw [zero_eq]
  rfl

theorem eq_zero_of_place {x : Binary64} (h : x.place? = some 0) : x = zero ∨ x = zero.neg := by
  have ht := topRank_pos
  rw [negative_zero_eq, zero_eq]
  cases x with
  | nan => cases h
  | infinite s => cases s <;> simp [place?] at h <;> omega
  | finite s r =>
    rw [place?_finite] at h
    cases s
    · left
      congr 1
      apply Fin.ext
      simpa using h
    · right
      congr 1
      apply Fin.ext
      simpa using h

theorem zero_ne_negative_zero : zero ≠ zero.neg := by
  rw [negative_zero_eq, zero_eq]
  simp

theorem ne_negative_zero_of_pos {x : Binary64} (h : zero.lt x = true) : x ≠ zero.neg := by
  rintro rfl
  rw [negative_zero_eq, zero_eq] at h
  simp [lt, place?] at h

/-- Nothing but zero is rounded to zero. -/
theorem nearestRank_eq_zero {n : Nat} (h : nearestRank n 1 = 0) : n = 0 := by
  by_contra hn
  have hu : unitsOfRank 1 * 1 * 1 ≤ n * 1 := by
    rw [unitsOfRank_small (by norm_num)]
    omega
  have hle := nearestRank_mono Nat.one_pos Nat.one_pos hu
  rw [nearestRank_units 1 Nat.one_pos, h] at hle
  omega

theorem ofRank_eq_finite {s t : Bool} {r : Nat} {r' : Fin topRank} (h : ofRank s r = .finite t r') :
    s = t ∧ r = r' := by
  unfold ofRank at h
  split at h
  · simp only [finite.injEq] at h
    exact ⟨h.1, by rw [← h.2]⟩
  · cases h

/-- A sum is the negative zero only if both terms are. -/
theorem add_eq_negative_zero {x y : Binary64} (h : x.add y = zero.neg) : x = zero.neg ∧ y = zero.neg := by
  rw [negative_zero_eq] at h ⊢
  cases x with
  | nan => cases h
  | infinite s =>
    cases y with
    | nan => cases h
    | infinite t => cases s <;> cases t <;> cases h
    | finite t b => cases h
  | finite s a =>
    cases y with
    | nan => cases h
    | infinite t => cases h
    | finite t b =>
      obtain ⟨hs, hr⟩ := ofRank_eq_finite h
      have hsum := nearestRank_eq_zero hr
      rw [Int.natAbs_eq_zero] at hsum
      rw [if_pos hsum, Bool.and_eq_true] at hs
      obtain ⟨rfl, rfl⟩ := hs
      -- both are negative, so neither makes up for the other
      have hu : unitsOfRank a.val = 0 ∧ unitsOfRank b.val = 0 := by
        simp only [units] at hsum
        omega
      have hz : ∀ r : Fin topRank, unitsOfRank r.val = 0 → r = ⟨0, topRank_pos⟩ := by
        intro r hr
        apply Fin.ext
        exact unitsOfRank_strictMono.injective hr
      rw [hz a hu.1, hz b hu.2]
      exact ⟨rfl, rfl⟩

/-! ## The error of a sum -/

/-- Below 1 the nearest double is off by at most 2^1020 units. -/
theorem nearestRank_near_of_lt_one {n : Nat} (h : n < 2 ^ 1074) :
    unitsOfRank (nearestRank n 1) ≤ n + 2 ^ 1020 ∧ n ≤ unitsOfRank (nearestRank n 1) + 2 ^ 1020 := by
  have hs : shiftOf n 1 ≤ 1021 := by
    unfold shiftOf
    rw [Nat.div_one]
    by_cases h0 : n = 0
    · rw [h0, Nat.log2_zero]
      omega
    · have := (Nat.log2_lt h0).2 h
      omega
  have hp : 2 ^ shiftOf n 1 ≤ 2 * 2 ^ 1020 := by
    rw [← Nat.pow_succ']
    exact Nat.pow_le_pow_right (by omega) hs
  obtain ⟨h1, h2⟩ := nearestRank_near (n := n) Nat.one_pos
  generalize 2 ^ 1020 = e at hp ⊢
  omega

/-- The units of a sum that is not negative and below 1. -/
theorem units_add {x y : Binary64} (hx : x.isFinite = true) (hy : y.isFinite = true) (h0 : 0 ≤ x.units + y.units)
    (h1 : x.units + y.units < 2 ^ 1074) :
    (x.add y).isFinite = true ∧ (x.add y).units = unitsOfRank (nearestRank (x.units + y.units).natAbs 1) := by
  have hf : (x.add y).isFinite = true := by
    refine isFinite_of_between zero_isFinite one_isFinite (le_add hx hy zero_isFinite ?_) (add_le hx hy one_isFinite ?_)
    · exact h0
    · rw [units_one]
      exact Int.le_of_lt h1
  obtain ⟨p, hp, hlt, hu⟩ := isFinite_iff.1 hf
  rw [place?_add hx hy, Option.some.injEq, nearestPlace, placeOf, if_neg (by simpa using h0)] at hp
  refine ⟨hf, ?_⟩
  have hr : Nat.min (nearestRank (x.units + y.units).natAbs 1) topRank = nearestRank (x.units + y.units).natAbs 1 := by
    rcases Nat.le_total (nearestRank (x.units + y.units).natAbs 1) topRank with h | h
    · exact Nat.min_eq_left h
    · rw [show Nat.min _ topRank = topRank from Nat.min_eq_right h] at hp
      omega
  rw [hu, ← hp, hr, unitsOfPlace, if_neg (by omega), Int.natAbs_natCast]

/-- A sum that is not negative and below 1 is finite, and rounded by at most 2^-54. -/
theorem add_near {x y : Binary64} (hx : x.isFinite = true) (hy : y.isFinite = true) (h0 : 0 ≤ x.toRat + y.toRat)
    (h1 : x.toRat + y.toRat < 1) :
    (x.add y).isFinite = true ∧ |(x.add y).toRat - (x.toRat + y.toRat)| ≤ 1 / 2 ^ 54 := by
  have e : x.toRat + y.toRat = ((x.units + y.units : Int) : ℚ) / 2 ^ 1074 := by
    rw [toRat, toRat, Int.cast_add, add_div]
  rw [e] at h0 h1 ⊢
  have h0' : 0 ≤ x.units + y.units := by
    rw [le_div_iff₀ (by positivity), zero_mul] at h0
    exact_mod_cast h0
  have h1' : x.units + y.units < 2 ^ 1074 := by
    rw [div_lt_one (by positivity)] at h1
    exact_mod_cast h1
  obtain ⟨hf, hu⟩ := units_add hx hy h0' h1'
  obtain ⟨n1, n2⟩ := nearestRank_near_of_lt_one (n := (x.units + y.units).natAbs) (by omega)
  refine ⟨hf, ?_⟩
  have hd : |(((x.add y).units - (x.units + y.units) : Int) : ℚ)| ≤ 2 ^ 1020 := by
    rw [hu, abs_le]
    generalize hn : unitsOfRank (nearestRank (x.units + y.units).natAbs 1) = r at n1 n2
    constructor
    · have : -(2 ^ 1020 : Int) ≤ (r : Int) - (x.units + y.units) := by omega
      exact_mod_cast this
    · have : (r : Int) - (x.units + y.units) ≤ 2 ^ 1020 := by omega
      exact_mod_cast this
  rw [toRat, ← sub_div, ← Int.cast_sub, abs_div, abs_of_pos (show (0 : ℚ) < 2 ^ 1074 by positivity),
    div_le_div_iff₀ (by positivity) (by positivity), one_mul, show (1074 : Nat) = 1020 + 54 from rfl, pow_add]
  exact mul_le_mul_of_nonneg_right hd (by positivity)

/-! ## Constants and integers -/

theorem zero_lt_half : zero.lt half = true :=
  lt_eq_true.2 ⟨_, _, place?_ofRank _ _, place?_ofRank _ _, by decide⟩

theorem half_lt_one : half.lt one = true :=
  lt_eq_true.2 ⟨_, _, place?_ofRank _ _, place?_ofRank _ _, by decide⟩

theorem zero_lt_one : zero.lt one = true :=
  lt_eq_true.2 ⟨_, _, place?_ofRank _ _, place?_ofRank _ _, by decide⟩

/-- Integers of 64 bits are far below the infinities. -/
theorem isFinite_ofInt {n : Int} (h : n.natAbs ≤ 2 ^ 64) : (ofInt n).isFinite = true := by
  have hu : unitsOfRank (1086 * 2 ^ 52 + 2 ^ 52) = 2 ^ 64 * 2 ^ 1074 := by
    rw [unitsOfRank_shifted (Nat.le_refl _) (by omega), ← Nat.pow_add, ← Nat.pow_add]
  have hr : nearestRank (n.natAbs * 2 ^ 1074) 1 ≤ 1086 * 2 ^ 52 + 2 ^ 52 := by
    refine nearestRank_le Nat.one_pos ?_
    rw [hu, Nat.mul_one]
    exact Nat.mul_le_mul_right _ h
  exact isFinite_ofRank (Nat.lt_of_le_of_lt hr (by decide))

end Binary64

end PhaseCert
