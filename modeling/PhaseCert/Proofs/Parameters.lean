/-
  PhaseCert.Proofs.Parameters — the count that a parameter stands for.

  `Denotes` says which natural number a value is: an integer or a float that is equal to it, or
  a text that spells it in digits. A count is that number where it is below 2^64, and nothing
  else is one, with a single exception (`count?_eq_some_iff`): the bound that a float is held
  against is the double nearest to 2^64 - 1, which is 2^64 itself, so the float 2^64 is let
  through and counts as 2^64 - 1 (`countOr_lets_through`). The same number as a text is refused.
-/
import PhaseCert.Proofs.Binary64.Order
import PhaseCert.Proofs.Decimal.Numeral
import PhaseCert.Parameters

namespace PhaseCert

/-! ## Numbers that are whole -/

/-- A double is taken for an integer exactly if it is equal to it. -/
theorem Binary64.toInt?_eq_some_iff {x : Binary64} {n : Int} :
    x.toInt? = some n ↔ x.isFinite = true ∧ x.toRat = n := by
  have hvalue : x.toRat = n ↔ x.units = n * 2 ^ 1074 := by
    have hcast : ((n * 2 ^ 1074 : Int) : ℚ) = n * 2 ^ 1074 := by rw [Int.cast_mul, Int.cast_pow, Int.cast_ofNat]
    rw [toRat, div_eq_iff (pow_ne_zero 1074 two_ne_zero), ← hcast, Int.cast_inj]
  simp only [hvalue, toInt?, Nat.pow_eq]
  constructor
  · intro h
    split at h
    · rename_i hx
      rw [Option.some.injEq] at h
      refine ⟨hx.1, ?_⟩
      have hdiv := Int.mul_ediv_add_emod x.units ((2 ^ 1074 : Nat) : Int)
      rw [h, hx.2, add_zero, Nat.cast_pow, Int.mul_comm] at hdiv
      exact_mod_cast hdiv.symm
    · cases h
  · rintro ⟨hx, hu⟩
    have hpos : ((2 ^ 1074 : Nat) : Int) ≠ 0 := by positivity
    rw [hu, show (n * 2 ^ 1074 : Int) = n * ((2 ^ 1074 : Nat) : Int) by push_cast; rfl]
    rw [if_pos ⟨hx, Int.mul_emod_left _ _⟩, Int.mul_ediv_cancel _ hpos]

namespace Numeral

/-- A plus or none, and digits, at least one: the number that they spell. -/
inductive CountText : List Char → Nat → Prop
  | mk {s ds : List Char} : SignText s false → ds ≠ [] → AllDigits ds → CountText (s ++ ds) (natOfDigits ds)

/-- The digits are what follows the plus, if there is one. -/
theorem nat?_of_toList {s : String} {p ds : List Char} (hp : SignText p false) (hs : s.toList = p ++ ds)
    (hplus : p = [] → ds.head? ≠ some '+') :
    nat? s = if ds ≠ [] ∧ ds.all Char.isDigit then some (natOfDigits ds) else none := by
  unfold nat?
  rw [hs]
  cases hp with
  | plus => rfl
  | none =>
    cases ds with
    | nil => rfl
    | cons c cs =>
      have hc : c ≠ '+' := by
        rintro rfl
        exact hplus rfl rfl
      simp [hc]

theorem nat?_eq_some_iff {s : String} {n : Nat} : nat? s = some n ↔ CountText s.toList n := by
  constructor
  · intro h
    obtain ⟨p, ds, hp, hs, hplus⟩ : ∃ p ds, SignText p false ∧ s.toList = p ++ ds ∧ (p = [] → ds.head? ≠ some '+') := by
      by_cases hc : s.toList.head? = some '+'
      · obtain ⟨cs, hcs⟩ := List.head?_eq_some_iff.1 hc
        exact ⟨['+'], cs, .plus, hcs, by simp⟩
      · exact ⟨[], s.toList, .none, rfl, fun _ => hc⟩
    rw [nat?_of_toList hp hs hplus] at h
    split at h
    · rename_i hds
      rw [Option.some.injEq] at h
      rw [hs, ← h]
      exact .mk hp hds.1 (List.all_eq_true.1 hds.2)
    · cases h
  · intro h
    generalize hs : s.toList = cs at h
    cases h with
    | @mk p ds hp hne hall =>
      have hplus : p = [] → ds.head? ≠ some '+' := by
        intro _ hfirst
        have hsign : NoSignFirst (ds ++ []) := noSignFirst_of_digits hne hall
        rw [List.append_nil] at hsign
        exact (hsign '+' hfirst).1 rfl
      rw [nat?_of_toList hp hs hplus, if_pos ⟨hne, List.all_eq_true.2 hall⟩]

end Numeral

/-! ## What a value denotes -/

namespace ParamValue

/-- The value is this natural number, or a text that spells it in digits. -/
inductive Denotes : ParamValue → Nat → Prop
  | integer {k : Signed64} {n : Nat} : k.val = n → Denotes (.integer k) n
  | float {x : Binary64} {n : Nat} : x.isFinite = true → x.toRat = n → Denotes (.float x) n
  | text {s : String} {n : Nat} : Numeral.CountText (trimBlanks s).toList n → Denotes (.text s) n

/-- The value is a float, and equal to 2^64. -/
def JustPast (v : ParamValue) : Prop := ∃ x, v = .float x ∧ x.isFinite = true ∧ x.toRat = 18446744073709551616

theorem denotes_integer {k : Signed64} {n : Nat} : Denotes (.integer k) n ↔ k.val = n := by
  constructor
  · rintro ⟨h⟩
    exact h
  · exact .integer

theorem denotes_float {x : Binary64} {n : Nat} : Denotes (.float x) n ↔ x.toInt? = some (n : Int) := by
  rw [Binary64.toInt?_eq_some_iff, Int.cast_natCast]
  constructor
  · rintro ⟨⟩
    exact ⟨‹_›, ‹_›⟩
  · rintro ⟨hx, hn⟩
    exact .float hx hn

theorem denotes_text {s : String} {n : Nat} : Denotes (.text s) n ↔ Numeral.CountText (trimBlanks s).toList n := by
  constructor
  · rintro ⟨⟩
    assumption
  · exact .text

theorem justPast_float {x : Binary64} : JustPast (.float x) ↔ x.toInt? = some 18446744073709551616 := by
  rw [Binary64.toInt?_eq_some_iff]
  simp [JustPast]

/-- A count is the number that the value denotes, where that is below 2^64; and the float 2^64
    counts as the number before it. -/
theorem count?_eq_some_iff {v : ParamValue} {n : Nat} :
    v.count? = some n ↔
      (v.Denotes n ∧ n < 18446744073709551616) ∨ (v.JustPast ∧ n = 18446744073709551615) := by
  cases v with
  | integer k =>
    have hk := k.property.2
    rw [denotes_integer, count?]
    simp only [JustPast, reduceCtorEq, false_and, exists_false, or_false]
    split <;> simp <;> omega
  | float x =>
    rw [denotes_float, justPast_float, count?]
    cases x.toInt? with
    | none => simp
    | some k =>
      simp only [Option.some.injEq]
      split <;> simp <;> omega
  | bool b =>
    constructor
    · intro h
      cases h
    · rintro (⟨⟨⟩, -⟩ | ⟨⟨x, hx, -⟩, -⟩)
      cases hx
  | text s =>
    rw [denotes_text, ← Numeral.nat?_eq_some_iff, count?]
    simp only [JustPast, reduceCtorEq, false_and, exists_false, or_false]
    cases Numeral.nat? (trimBlanks s) with
    | none => simp
    | some k =>
      simp only [Option.some.injEq]
      split <;> simp <;> omega

end ParamValue

/-! ## What is looked up -/

namespace Parameters

theorem place_text (key : String) : (place key).text = "parameters." ++ key := by
  simp [place, Place.text, Place.join]

theorem place_of_countOr {ps : Parameters} {key : String} {default : Nat} {f : Fault}
    (h : ps.countOr key default = .error f) : f.place = place key := by
  unfold countOr at h
  split at h
  · cases h
  · split at h
    · rw [Except.error.injEq] at h
      rw [← h]
    · cases h

theorem place_of_realOr {ps : Parameters} {key : String} {default : Binary64} {f : Fault}
    (h : ps.realOr key default = .error f) : f.place = place key := by
  unfold realOr at h
  split at h
  · cases h
  · split at h
    · rw [Except.error.injEq] at h
      rw [← h]
    · split at h
      · cases h
      · rw [Except.error.injEq] at h
        rw [← h]

/-- Where the key is absent the count is the default. Where it is not, the default plays no
    part: the count is what the value stands for, and there is a fault at the parameter if it
    stands for none. -/
theorem countOr_spec (ps : Parameters) (key : String) :
    match ps.get? key with
    | none => ∀ default, ps.countOr key default = .ok default
    | some v => ∃ r, (∀ default, ps.countOr key default = r) ∧
        (∀ n, r = .ok n ↔
          (v.Denotes n ∧ n < 18446744073709551616) ∨ (v.JustPast ∧ n = 18446744073709551615)) ∧
        ∀ f, r = .error f → f.place.text = "parameters." ++ key := by
  cases hv : ps.get? key with
  | none =>
    intro default
    simp [countOr, hv]
  | some v =>
    simp only [countOr, hv, ← ParamValue.count?_eq_some_iff]
    cases v.count? with
    | none =>
      refine ⟨_, fun default => rfl, by simp, ?_⟩
      rintro f ⟨⟩
      exact place_text key
    | some k =>
      refine ⟨_, fun default => rfl, by simp, ?_⟩
      rintro f ⟨⟩

/-- The float 2^64 is no number below 2^64 and is counted, as 2^64 - 1; the text is refused. -/
theorem countOr_lets_through :
    (∀ n, ParamValue.Denotes (.float (.ofInt 18446744073709551616)) n → ¬n < 18446744073709551616) ∧
      countOr (.ofList [("N", .float (.ofInt 18446744073709551616))]) "N" 1000 = .ok 18446744073709551615 ∧
        ∃ f, countOr (.ofList [("N", .text "18446744073709551616")]) "N" 1000 = .error f := by
  have hvalue : (Binary64.ofInt 18446744073709551616).toInt? = some 18446744073709551616 := by decide +kernel
  refine ⟨?_, by decide +kernel, ⟨place "N", .expected .count (.quoted "18446744073709551616")⟩, by decide +kernel⟩
  intro n hn
  rw [ParamValue.denotes_float, hvalue, Option.some.injEq] at hn
  omega

end Parameters

end PhaseCert
