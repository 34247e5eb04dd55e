/-
  PhaseCert.Proofs.Decimal.Layout — the texts of integers and of doubles.

  The digits of a natural number have no idle zero in front (`wholeText_toString`). A layout in
  which whole numbers end in `.0` never writes a double like an integer: its texts are those of
  `FloatText`, digits without an idle zero and then a fraction, an exponent or both
  (`floatText_decimalText`). Read as a decimal, the text of a double is that double again
  (`floatText_shortest`).
-/
import PhaseCert.Decimal.Layout
import PhaseCert.Proofs.Decimal.Shortest

namespace PhaseCert

namespace Numeral

/-! ## Digits without idle zeros -/

/-- Digits that begin with a zero only if they are one zero. -/
structure WholeText (cs : List Char) : Prop where
  digits : AllDigits cs
  proper : cs = ['0'] ∨ ∃ c rest, cs = c :: rest ∧ c ≠ '0'

theorem WholeText.ne_nil {cs : List Char} (h : WholeText cs) : cs ≠ [] := by
  rcases h.proper with rfl | ⟨c, rest, rfl, -⟩ <;> simp

theorem wholeText_zero : WholeText ['0'] := ⟨by simp [AllDigits], .inl rfl⟩

theorem head_toDigits (n : Nat) (hn : n ≠ 0) : ∃ c rest, Nat.toDigits 10 n = c :: rest ∧ c ≠ '0' := by
  induction n using Nat.strongRecOn with
  | ind n ih =>
    by_cases hlt : n < 10
    · refine ⟨n.digitChar, [], Nat.toDigits_of_lt_base hlt, ?_⟩
      intro h0
      have hdigit : ∀ m < 10, m.digitChar = '0' → m = 0 := by decide
      exact hn (hdigit n hlt h0)
    · have hdiv : n / 10 < n := Nat.div_lt_self (by omega) (by decide)
      obtain ⟨c, rest, hc, hne⟩ := ih (n / 10) hdiv (by omega)
      refine ⟨c, rest ++ [(n % 10).digitChar], ?_, hne⟩
      rw [Nat.toDigits_of_base_le (by decide) (by omega), hc, List.cons_append]

theorem head_toString {n : Nat} (hn : n ≠ 0) : ∃ c rest, (toString n).toList = c :: rest ∧ c ≠ '0' := by
  rw [Nat.toString_eq_ofList_toDigits, String.toList_ofList]
  exact head_toDigits n hn

theorem wholeText_toString (n : Nat) : WholeText (toString n).toList := by
  refine ⟨allDigits_toString n, ?_⟩
  by_cases hn : n = 0
  · subst hn
    exact .inl rfl
  · exact .inr (head_toString hn)

theorem natOfDigits_zeros (n : Nat) : natOfDigits (List.replicate n '0') = 0 := by
  rw [natOfDigits_eq, Nat.ofDigitChars_replicate_zero, Nat.mul_zero]

theorem allDigits_zeros (n : Nat) : AllDigits (List.replicate n '0') := by
  intro c hc
  rw [List.eq_of_mem_replicate hc]
  rfl

theorem AllDigits.append {ds es : List Char} (hd : AllDigits ds) (he : AllDigits es) : AllDigits (ds ++ es) := by
  intro c hc
  rcases List.mem_append.1 hc with hc | hc
  · exact hd c hc
  · exact he c hc

/-! ## The grammar -/

/-- A numeral without a sign that is no integer: after the digits a fraction, an exponent or both. -/
inductive FloatText : List Char → Decimal → Prop
  | mk {whole point part e : List Char} {k : Int} : WholeText whole → AllDigits part →
      (point = ['.'] ∧ part ≠ []) ∨ (point = [] ∧ part = []) → ExponentText e k → point ≠ [] ∨ e ≠ [] →
      FloatText (whole ++ (point ++ (part ++ e))) ⟨natOfDigits (whole ++ part), k - part.length⟩

theorem FloatText.decimalText {s cs : List Char} {negative : Bool} {d : Decimal} (hs : SignText s negative)
    (h : FloatText cs d) : DecimalText (s ++ cs) negative d := by
  obtain ⟨hw, hp, hpoint, he, -⟩ := h
  refine .mk hs hw.digits hp (.inl hw.ne_nil) ?_ he
  rcases hpoint with ⟨h, -⟩ | h
  · exact .inl h
  · exact .inr h

end Numeral

/-! ## Decimals laid out -/

namespace NumberLayout

open Numeral

/-- The power of ten that ends a text. -/
theorem exponentText_scientific (layout : NumberLayout) (k : Int) :
    ExponentText ('e' :: ((if k < 0 then ['-'] else if layout.plusSign then ['+'] else [])
      ++ (toString k.natAbs).toList)) k := by
  have hd := allDigits_toString k.natAbs
  have hnil := toString_ne_nil k.natAbs
  by_cases hk : k < 0
  · have he := ExponentText.some (.inl rfl) .minus hnil hd
    rw [if_pos rfl, natOfDigits_toString, show -(k.natAbs : Int) = k by omega] at he
    rw [if_pos hk]
    exact he
  · have hsign : SignText (if layout.plusSign then ['+'] else []) false := by
      split
      · exact .plus
      · exact .none
    have he := ExponentText.some (.inl rfl) hsign hnil hd
    rw [if_neg Bool.false_ne_true, natOfDigits_toString, show (k.natAbs : Int) = k by omega] at he
    rw [if_neg hk]
    exact he

section Digits

variable {layout : NumberLayout} {c : Char} {rest : List Char} (hd : AllDigits (c :: rest)) (hne : c ≠ '0')

include hd

/-- All digits stand behind the point, with zeros before them. -/
theorem floatText_behind (m : Nat) :
    ∃ d, FloatText ('0' :: '.' :: (List.replicate m '0' ++ c :: rest)) d ∧
      d.toRat = (Decimal.mk (natOfDigits (c :: rest)) (-m - (c :: rest).length)).toRat := by
  have hpart : List.replicate m '0' ++ c :: rest ≠ [] := by simp
  have htext := FloatText.mk wholeText_zero ((allDigits_zeros m).append hd) (.inl ⟨rfl, hpart⟩) .none (.inl (by simp))
  rw [List.append_nil] at htext
  refine ⟨_, htext, ?_⟩
  have hcoef : natOfDigits (['0'] ++ (List.replicate m '0' ++ c :: rest)) = natOfDigits (c :: rest) := by
    rw [natOfDigits_append, natOfDigits_append, natOfDigits_zeros]
    simp [natOfDigits, digitValue]
  have hexp : (0 : Int) - (List.replicate m '0' ++ c :: rest).length = -m - (c :: rest).length := by
    rw [List.length_append, List.length_replicate]
    omega
  rw [hcoef, hexp]

include hne

/-- All digits stand before the point, with zeros after them. -/
theorem floatText_before (m : Nat) :
    ∃ d, FloatText (c :: rest ++ List.replicate m '0' ++ ['.', '0']) d ∧
      d.toRat = (Decimal.mk (natOfDigits (c :: rest)) m).toRat := by
  have hwhole : WholeText (c :: rest ++ List.replicate m '0') :=
    ⟨hd.append (allDigits_zeros m), .inr ⟨c, rest ++ List.replicate m '0', rfl, hne⟩⟩
  have htext := FloatText.mk hwhole (allDigits_zeros 1) (.inl ⟨rfl, by simp⟩) .none (.inl (by simp))
  refine ⟨_, htext, ?_⟩
  have hcoef : natOfDigits (c :: rest ++ List.replicate m '0' ++ List.replicate 1 '0')
      = natOfDigits (c :: rest) * 10 ^ (m + 1) := by
    rw [List.append_assoc, List.replicate_append_replicate, natOfDigits_append, natOfDigits_zeros, List.length_replicate]
    rfl
  rw [hcoef]
  simp only [Decimal.toRat, List.length_replicate]
  push_cast
  rw [zpow_natCast, pow_succ, zpow_neg, zpow_one]
  field_simp

/-- The point stands among the digits. -/
theorem floatText_among {n : Nat} (hn : 0 < n) (hlen : n < (c :: rest).length) :
    ∃ d, FloatText ((c :: rest).take n ++ '.' :: (c :: rest).drop n) d ∧
      d.toRat = (Decimal.mk (natOfDigits (c :: rest)) (n - (c :: rest).length)).toRat := by
  have htake : WholeText ((c :: rest).take n) := by
    obtain ⟨m, rfl⟩ : ∃ m, n = m + 1 := ⟨n - 1, by omega⟩
    exact ⟨fun x hx => hd x (List.mem_of_mem_take hx), .inr ⟨c, rest.take m, rfl, hne⟩⟩
  have hdrop : (c :: rest).drop n ≠ [] := by
    rw [ne_eq, List.drop_eq_nil_iff]
    omega
  have htext := FloatText.mk htake (fun x hx => hd x (List.mem_of_mem_drop hx)) (.inl ⟨rfl, hdrop⟩) .none (.inl (by simp))
  rw [List.append_nil] at htext
  refine ⟨_, htext, ?_⟩
  have hexp : (0 : Int) - ((c :: rest).drop n).length = n - (c :: rest).length := by
    rw [List.length_drop]
    omega
  rw [List.take_append_drop, hexp]

/-- Digits without a power of ten, with the point after so many of them. -/
theorem floatText_positional (hz : layout.pointZero = true) (point : Int) :
    ∃ d, FloatText (layout.positionalText (c :: rest) point) d ∧
      d.toRat = (Decimal.mk (natOfDigits (c :: rest)) (point - (c :: rest).length)).toRat := by
  unfold positionalText
  split
  · rw [show point - ((c :: rest).length : Int) = -(point.natAbs : Int) - (c :: rest).length by omega]
    exact floatText_behind hd point.natAbs
  · split
    · generalize hm : point.toNat - (c :: rest).length = m
      rw [show point - ((c :: rest).length : Int) = m by omega]
      exact floatText_before hd hne m
    · rw [show point - ((c :: rest).length : Int) = point.toNat - (c :: rest).length by omega]
      exact floatText_among hd hne (by omega) (by omega)

/-- One digit before the point, and the power of ten after the digits. -/
theorem floatText_scientific (layout : NumberLayout) (k : Int) :
    ∃ d, FloatText (layout.scientificText (c :: rest) k) d ∧
      d.toRat = (Decimal.mk (natOfDigits (c :: rest)) (k + 1 - (c :: rest).length)).toRat := by
  have hexponent := exponentText_scientific layout k
  have hwhole : WholeText [c] := by
    refine ⟨fun x hx => hd x ?_, .inr ⟨c, [], rfl, hne⟩⟩
    rw [List.mem_singleton.1 hx]
    exact List.mem_cons_self
  have hshift : k + 1 - ((c :: rest).length : Int) = k - rest.length := by
    rw [List.length_cons]
    omega
  rw [hshift]
  cases rest with
  | nil => exact ⟨_, .mk hwhole (allDigits_zeros 0) (.inr ⟨rfl, rfl⟩) hexponent (.inr (by simp)), rfl⟩
  | cons x rest =>
    have hrest : AllDigits (x :: rest) := fun y hy => hd y (List.mem_cons_of_mem c hy)
    exact ⟨_, .mk hwhole hrest (.inl ⟨rfl, by simp⟩) hexponent (.inl (by simp)), rfl⟩

end Digits

/-- Every decimal is written with a fraction or an exponent, and the text has its value. -/
theorem floatText_decimalText {layout : NumberLayout} (hz : layout.pointZero = true) (d : Decimal) :
    ∃ d', FloatText (layout.decimalText d) d' ∧ d'.toRat = d.toRat := by
  simp only [decimalText]
  by_cases hn : d.coefficient = 0
  · rw [if_pos hn, if_pos hz]
    have htext := FloatText.mk wholeText_zero (allDigits_zeros 1) (.inl ⟨rfl, by simp⟩) .none (.inl (by simp))
    refine ⟨_, htext, ?_⟩
    simp [Decimal.toRat, hn, natOfDigits, digitValue]
  · rw [if_neg hn]
    obtain ⟨c, rest, hc, hne⟩ := head_toString hn
    have hd := allDigits_toString d.coefficient
    have hvalue := natOfDigits_toString d.coefficient
    rw [hc] at hd hvalue ⊢
    generalize hpoint : d.exponent + ((c :: rest).length : Int) = point
    have hexponent : d.exponent = point - (c :: rest).length := by omega
    have hd' : d = Decimal.mk (natOfDigits (c :: rest)) (point - (c :: rest).length) := by rw [hvalue, ← hexponent]
    split
    · obtain ⟨d', htext, h⟩ := floatText_positional hd hne hz point
      exact ⟨d', htext, by rw [h, ← hd']⟩
    · obtain ⟨d', htext, h⟩ := floatText_scientific hd hne layout (point - 1)
      rw [Int.sub_add_cancel, ← hd'] at h
      exact ⟨d', htext, h⟩

/-- The text of a double, read as a decimal, is that double. -/
theorem floatText_shortest {layout : NumberLayout} (hz : layout.pointZero = true) (s : Bool) (r : Fin Binary64.topRank) :
    ∃ d, FloatText (layout.decimalText (.shortest r)) d ∧ d.toBinary64 s = .finite s r := by
  obtain ⟨d, htext, hvalue⟩ := floatText_decimalText hz (.shortest r)
  exact ⟨d, htext, by rw [Decimal.toBinary64_congr s hvalue, toBinary64_shortest]⟩

end NumberLayout

end PhaseCert
