/-
  PhaseCert.Proofs.Decimal.Numeral — the texts that are decimal numerals.

  `DecimalText` says what a numeral is, piece by piece: a sign or none, digits with at most one
  point among or beside them and at least one digit in all, and an exponent or none. The
  reader takes exactly these texts, each to its sign and decimal (`decimalText_iff`), and a
  text is read as a finite double exactly if it is a numeral whose nearest double is finite
  (`real?_eq_some_iff`): the words for infinities and NaN give none.
-/
import Mathlib.Algebra.Group.Nat.Defs
import PhaseCert.Decimal.Numeral

namespace PhaseCert.Numeral

/-! ## Digits -/

def AllDigits (cs : List Char) : Prop := ∀ c ∈ cs, c.isDigit = true

/-- A text that does not go on with a digit. -/
def NoDigitFirst (cs : List Char) : Prop := ∀ c ∈ cs.head?, c.isDigit = false

theorem noDigitFirst_cons {c : Char} {cs : List Char} (h : c.isDigit = false) : NoDigitFirst (c :: cs) := by
  intro d hd
  simp only [List.head?_cons, Option.mem_some_iff] at hd
  subst hd
  exact h

theorem digits_append {ds rest : List Char} (hd : AllDigits ds) (hr : NoDigitFirst rest) :
    digits (ds ++ rest) = (ds, rest) := by
  have ht : rest.takeWhile Char.isDigit = [] := by
    cases rest with
    | nil => rfl
    | cons c cs => simp [hr c rfl]
  have hw : rest.dropWhile Char.isDigit = rest := by
    cases rest with
    | nil => rfl
    | cons c cs => simp [hr c rfl]
  unfold digits
  rw [List.takeWhile_append_of_pos hd, List.dropWhile_append_of_pos hd, ht, hw, List.append_nil]

theorem digits_spec (cs : List Char) :
    cs = (digits cs).1 ++ (digits cs).2 ∧ AllDigits (digits cs).1 ∧ NoDigitFirst (digits cs).2 := by
  refine ⟨List.takeWhile_append_dropWhile.symm, ?_, ?_⟩
  · exact List.all_eq_true.1 List.all_takeWhile
  · intro c hc
    have h := List.head?_dropWhile_not Char.isDigit cs
    rw [show cs.dropWhile Char.isDigit = (digits cs).2 from rfl] at h
    rw [Option.mem_def] at hc
    rw [hc] at h
    simpa using h

theorem natOfDigits_eq (ds : List Char) : natOfDigits ds = Nat.ofDigitChars 10 ds 0 := rfl

theorem natOfDigits_append (ds es : List Char) :
    natOfDigits (ds ++ es) = natOfDigits ds * 10 ^ es.length + natOfDigits es := by
  rw [natOfDigits_eq, Nat.ofDigitChars_append, Nat.ofDigitChars_eq_ofDigitChars_zero, natOfDigits_eq,
    natOfDigits_eq, Nat.mul_comm]

@[simp] theorem natOfDigits_toString (n : Nat) : natOfDigits (toString n).toList = n := by
  rw [natOfDigits_eq, Nat.toString_eq_ofList_toDigits, String.toList_ofList, Nat.ofDigitChars_ten_toDigits]

theorem allDigits_toString (n : Nat) : AllDigits (toString n).toList := by
  intro c hc
  rw [Nat.toString_eq_ofList_toDigits, String.toList_ofList] at hc
  exact Nat.isDigit_of_mem_toDigits (by decide) (by decide) hc

theorem toString_ne_nil (n : Nat) : (toString n).toList ≠ [] := by
  rw [Nat.toString_eq_ofList_toDigits, String.toList_ofList]
  exact Nat.toDigits_ne_nil

/-! ## The grammar -/

/-- A sign or none; `true` for a minus. -/
inductive SignText : List Char → Bool → Prop
  | none : SignText [] false
  | plus : SignText ['+'] false
  | minus : SignText ['-'] true

/-- An exponent part and its value; without one the exponent is 0. -/
inductive ExponentText : List Char → Int → Prop
  | none : ExponentText [] 0
  | some {mark : Char} {s ds : List Char} {negative : Bool} : mark = 'e' ∨ mark = 'E' → SignText s negative →
      ds ≠ [] → AllDigits ds →
      ExponentText (mark :: (s ++ ds)) (if negative then -(natOfDigits ds : Int) else natOfDigits ds)

/-- A numeral: its sign, and the decimal of its digits. -/
inductive DecimalText : List Char → Bool → Decimal → Prop
  | mk {s whole point part e : List Char} {negative : Bool} {k : Int} : SignText s negative →
      AllDigits whole → AllDigits part → whole ≠ [] ∨ part ≠ [] →
      point = ['.'] ∨ (point = [] ∧ part = []) → ExponentText e k →
      DecimalText (s ++ (whole ++ (point ++ (part ++ e)))) negative ⟨natOfDigits (whole ++ part), k - part.length⟩

/-! ## Signs and exponents -/

/-- A text that does not begin with a sign. -/
def NoSignFirst (cs : List Char) : Prop := ∀ c ∈ cs.head?, c ≠ '+' ∧ c ≠ '-'

theorem sign_of_noSign {cs : List Char} (h : NoSignFirst cs) : sign cs = (false, cs) := by
  cases cs with
  | nil => rfl
  | cons c cs =>
    obtain ⟨h1, h2⟩ := h c rfl
    unfold sign
    split
    · simp_all
    · simp_all
    · rfl

theorem sign_append {s cs : List Char} {negative : Bool} (hs : SignText s negative) (h : NoSignFirst cs) :
    sign (s ++ cs) = (negative, cs) := by
  cases hs with
  | none => exact sign_of_noSign h
  | plus => rfl
  | minus => rfl

theorem sign_spec (cs : List Char) : ∃ s, SignText s (sign cs).1 ∧ s ++ (sign cs).2 = cs := by
  unfold sign
  split
  · exact ⟨['-'], .minus, rfl⟩
  · exact ⟨['+'], .plus, rfl⟩
  · exact ⟨[], .none, rfl⟩

theorem noSignFirst_of_digits {ds cs : List Char} (hne : ds ≠ []) (hd : AllDigits ds) : NoSignFirst (ds ++ cs) := by
  cases ds with
  | nil => exact absurd rfl hne
  | cons c ds =>
    intro x hx
    simp only [List.cons_append, List.head?_cons, Option.mem_some_iff] at hx
    subst hx
    have := hd c List.mem_cons_self
    constructor
    · rintro rfl
      cases this
    · rintro rfl
      cases this

theorem exponent?_eq_some_iff {cs : List Char} {k : Int} : exponent? cs = some k ↔ ExponentText cs k := by
  constructor
  · intro h
    cases cs with
    | nil =>
      simp only [exponent?, Option.some.injEq] at h
      subst h
      exact .none
    | cons c cs =>
      simp only [exponent?] at h
      obtain ⟨s, hs, e⟩ := sign_spec cs
      split at h
      · rename_i hc
        split at h
        · rename_i hd
          simp only [Option.some.injEq] at h
          subst h
          have ht := ExponentText.some hc hs hd.1 (List.all_eq_true.1 hd.2)
          rwa [e] at ht
        · cases h
      · cases h
  · intro h
    cases h with
    | none => rfl
    | some hm hs hne hd =>
      rename_i mark s ds negative
      have hfirst : NoSignFirst (ds ++ []) := noSignFirst_of_digits hne hd
      rw [List.append_nil] at hfirst
      have hsign := sign_append hs hfirst
      simp only [exponent?, hm, if_true, hsign]
      rw [if_pos ⟨hne, List.all_eq_true.2 hd⟩]

theorem exponentText_head {e : List Char} {k : Int} (h : ExponentText e k) :
    ∀ c ∈ e.head?, c = 'e' ∨ c = 'E' := by
  cases h with
  | none =>
    intro c hc
    cases hc
  | some hm _ _ _ =>
    intro c hc
    simp only [List.head?_cons, Option.mem_some_iff] at hc
    subst hc
    exact hm

/-! ## Numerals -/

theorem fraction_spec (cs : List Char) : ∃ point, (point = ['.'] ∨ (point = [] ∧ (fraction cs).1 = [])) ∧
    AllDigits (fraction cs).1 ∧ point ++ ((fraction cs).1 ++ (fraction cs).2) = cs := by
  unfold fraction
  split
  · rename_i tail
    obtain ⟨h1, h2, -⟩ := digits_spec tail
    refine ⟨['.'], Or.inl rfl, h2, ?_⟩
    rw [← h1]
    rfl
  · exact ⟨[], Or.inr ⟨rfl, rfl⟩, (fun _ h => by cases h), rfl⟩

theorem decimal?_of_parts {whole point part e : List Char} {k : Int} (hw : AllDigits whole) (hp : AllDigits part)
    (hne : whole ≠ [] ∨ part ≠ []) (hpoint : point = ['.'] ∨ (point = [] ∧ part = [])) (he : ExponentText e k) :
    decimal? (whole ++ (point ++ (part ++ e))) = some ⟨natOfDigits (whole ++ part), k - part.length⟩ := by
  have hed : NoDigitFirst e := by
    intro c hc
    rcases exponentText_head he c hc with rfl | rfl <;> rfl
  have hn : ¬ (whole = [] ∧ part = []) := by
    rintro ⟨h1, h2⟩
    rcases hne with h | h
    · exact h h1
    · exact h h2
  rcases hpoint with rfl | ⟨rfl, rfl⟩
  · have h1 : digits (whole ++ (['.'] ++ (part ++ e))) = (whole, '.' :: (part ++ e)) :=
      digits_append hw (noDigitFirst_cons rfl)
    have h2 : fraction ('.' :: (part ++ e)) = (part, e) := digits_append hp hed
    simp only [decimal?, h1, h2, exponent?_eq_some_iff.2 he, Option.map_some]
    exact if_neg hn
  · have h1 : digits (whole ++ ([] ++ ([] ++ e))) = (whole, e) := digits_append hw hed
    have h2 : fraction e = ([], e) := by
      unfold fraction
      split
      · rename_i cs
        rcases exponentText_head he '.' rfl with h | h <;> cases h
      · rfl
    simp only [decimal?, h1, h2, exponent?_eq_some_iff.2 he, Option.map_some]
    exact if_neg (by simpa using hn)

theorem decimal?_parts {cs : List Char} {d : Decimal} (h : decimal? cs = some d) :
    ∃ whole point part e k, AllDigits whole ∧ AllDigits part ∧ (whole ≠ [] ∨ part ≠ []) ∧
      (point = ['.'] ∨ (point = [] ∧ part = [])) ∧ ExponentText e k ∧
      cs = whole ++ (point ++ (part ++ e)) ∧ d = ⟨natOfDigits (whole ++ part), k - part.length⟩ := by
  obtain ⟨h1, h2, -⟩ := digits_spec cs
  unfold decimal? at h
  simp only at h
  split at h
  · cases h
  · rename_i hne
    obtain ⟨k, hk, rfl⟩ := Option.map_eq_some_iff.1 h
    have hne' := Decidable.not_and_iff_not_or_not.1 hne
    rw [exponent?_eq_some_iff] at hk
    obtain ⟨point, h3, h4, h5⟩ := fraction_spec (digits cs).2
    refine ⟨_, point, _, _, k, h2, h4, hne', h3, hk, ?_, rfl⟩
    rw [h5]
    exact h1

/-- A numeral is made of digits, signs, a point and an exponent's mark. -/
theorem decimalText_chars {cs : List Char} {negative : Bool} {d : Decimal} (h : DecimalText cs negative d) :
    ∀ c ∈ cs, c.isDigit = true ∨ c ∈ ['+', '-', '.', 'e', 'E'] := by
  obtain ⟨hs, hw, hp, -, hpoint, he⟩ := h
  have hsign : ∀ {s : List Char} {b : Bool}, SignText s b → ∀ c ∈ s, c ∈ ['+', '-', '.', 'e', 'E'] := by
    intro s b hs c hc
    cases hs <;> simp_all
  intro c hc
  simp only [List.mem_append] at hc
  rcases hc with hc | hc | hc | hc | hc
  · exact Or.inr (hsign hs c hc)
  · exact Or.inl (hw c hc)
  · rcases hpoint with rfl | ⟨rfl, -⟩
    · exact Or.inr (by simp_all)
    · cases hc
  · exact Or.inl (hp c hc)
  · cases he with
    | none => cases hc
    | some hm hs' _ hd =>
      rcases List.mem_cons.1 hc with rfl | hc
      · rcases hm with rfl | rfl <;> exact Or.inr (by decide)
      · rcases List.mem_append.1 hc with hc | hc
        · exact Or.inr (hsign hs' c hc)
        · exact Or.inl (hd c hc)

/-- The reader takes exactly the numerals. -/
theorem decimalText_iff {cs : List Char} {negative : Bool} {d : Decimal} :
    DecimalText cs negative d ↔ (sign cs).1 = negative ∧ decimal? (sign cs).2 = some d := by
  constructor
  · rintro ⟨hs, hw, hp, hne, hpoint, he⟩
    rename_i s whole point part e k
    have hf : NoSignFirst (whole ++ (point ++ (part ++ e))) := by
      by_cases h : whole = []
      · subst h
        rcases hpoint with rfl | ⟨-, rfl⟩
        · intro c hc
          simp only [List.nil_append, List.singleton_append, List.head?_cons, Option.mem_some_iff] at hc
          subst hc
          decide
        · simp at hne
      · exact noSignFirst_of_digits h hw
    rw [sign_append hs hf]
    exact ⟨rfl, decimal?_of_parts hw hp hne hpoint he⟩
  · rintro ⟨rfl, h⟩
    obtain ⟨s, hs, e⟩ := sign_spec cs
    obtain ⟨whole, point, part, ex, k, hw, hp, hne, hpoint, he, hc, rfl⟩ := decimal?_parts h
    have ht := DecimalText.mk hs hw hp hne hpoint he
    rwa [← hc, e] at ht

/-- Which texts stand for a finite double, and for which. -/
theorem real?_eq_some_iff {s : String} {x : Binary64} (hx : x.isFinite = true) :
    real? s = some x ↔ ∃ negative d, DecimalText s.toList negative d ∧ x = d.toBinary64 negative := by
  unfold real?
  simp only
  constructor
  · intro h
    split at h
    · rename_i d hd
      exact ⟨_, d, decimalText_iff.2 ⟨rfl, hd⟩, by simpa using h.symm⟩
    · simp only [word?] at h
      split at h
      · simp only [Option.some.injEq] at h
        subst h
        cases hx
      · split at h
        · simp only [Option.some.injEq] at h
          subst h
          cases hx
        · cases h
  · rintro ⟨negative, d, hd, rfl⟩
    obtain ⟨rfl, h⟩ := decimalText_iff.1 hd
    rw [h]

end PhaseCert.Numeral
