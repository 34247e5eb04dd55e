/-
  PhaseCert.Proofs.Toml.Number — the numbers of TOML that are written without underscores.

  A numeral is read to its end, whatever comes after it (`decimal?_int`, `decimal?_float`), and
  what begins like one is tried as nothing else: not as a text, a word, a date, a time or a number
  in another base (`Numeric.value?`).
-/
import PhaseCert.Proofs.Flow
import PhaseCert.Toml.Value

namespace PhaseCert.Toml

open Numeral

/-! ## Digits, fractions and exponents -/

/-- What follows the digits of a number. -/
def EndsDigits (rest : List Char) : Prop := ∀ c ∈ rest.head?, c.isDigit = false ∧ c ≠ '_'

theorem moreDigits_append {ds rest : List Char} (hd : AllDigits ds) (hr : EndsDigits rest) :
    moreDigits Char.isDigit (ds ++ rest) = (ds, rest) := by
  induction ds with
  | nil =>
    cases rest with
    | nil => rfl
    | cons c rest =>
      obtain ⟨h1, h2⟩ := hr c rfl
      rw [List.nil_append]
      unfold moreDigits
      split
      · rename_i heq
        cases heq
        exact absurd rfl h2
      · rename_i heq
        cases heq
        simp [h1]
      · rename_i heq
        cases heq
  | cons c ds ih =>
    have hc : c.isDigit = true := hd c List.mem_cons_self
    have hds : AllDigits ds := fun x hx => hd x (List.mem_cons_of_mem c hx)
    rw [List.cons_append]
    unfold moreDigits
    split
    · rename_i heq
      rw [(List.cons.inj heq).1] at hc
      cases hc
    · rename_i heq
      obtain ⟨rfl, rfl⟩ := List.cons.inj heq
      simp [hc, ih hds]
    · rename_i heq
      cases heq

theorem digits?_append {ds rest : List Char} (hd : AllDigits ds) (hne : ds ≠ []) (hr : EndsDigits rest) :
    digits? Char.isDigit (ds ++ rest) = some (ds, rest) := by
  cases ds with
  | nil => exact absurd rfl hne
  | cons c ds =>
    have hc : c.isDigit = true := hd c List.mem_cons_self
    have hds : AllDigits ds := fun x hx => hd x (List.mem_cons_of_mem c hx)
    simp [digits?, hc, moreDigits_append hds hr]

theorem whole?_append {cs rest : List Char} (h : WholeText cs) (hr : EndsDigits rest) :
    whole? (cs ++ rest) = some (cs, rest) := by
  rcases h.proper with rfl | ⟨c, ds, rfl, hne⟩
  · rfl
  · have hd := digits?_append h.digits h.ne_nil hr
    rw [List.cons_append] at hd ⊢
    unfold whole?
    split
    · rename_i heq
      cases heq
      exact absurd rfl hne
    · exact hd

theorem fraction?_append {part rest : List Char} (hp : AllDigits part) (hne : part ≠ []) (hr : EndsDigits rest) :
    fraction? ('.' :: (part ++ rest)) = some (part, rest) :=
  digits?_append hp hne hr

theorem fraction?_none {rest : List Char} (hr : rest.head? ≠ some '.') : fraction? rest = some ([], rest) := by
  unfold fraction?
  split
  · exact absurd rfl hr
  · rfl

theorem exponent?_none {rest : List Char} (hr : ∀ c ∈ rest.head?, c ≠ 'e' ∧ c ≠ 'E') :
    exponent? rest = some (none, rest) := by
  cases rest with
  | nil => rfl
  | cons c rest =>
    obtain ⟨h1, h2⟩ := hr c rfl
    simp [exponent?, h1, h2]

theorem exponent?_append {e rest : List Char} {k : Int} (he : ExponentText e k) (hr : EndsDigits rest)
    (hr' : ∀ c ∈ rest.head?, c ≠ 'e' ∧ c ≠ 'E') :
    ∃ exponent, exponent? (e ++ rest) = some (exponent, rest) ∧ exponent.getD 0 = k ∧ (exponent = none ↔ e = []) := by
  cases he with
  | none => exact ⟨none, exponent?_none hr', rfl, by simp⟩
  | some hm hs hne hd =>
    rename_i mark s ds negative
    have hfirst : NoSignFirst (ds ++ rest) := noSignFirst_of_digits hne hd
    have hsign := sign_append hs hfirst
    have hdigits := digits?_append hd hne hr
    refine ⟨some (if negative then -(natOfDigits ds : Int) else natOfDigits ds), ?_, rfl, by simp⟩
    rw [List.cons_append, List.append_assoc]
    simp only [exponent?, hm, if_true, hsign, hdigits, Option.map_some]

theorem endsDigits_of_endsValue {rest : List Char} (h : EndsValue rest) : EndsDigits rest := by
  intro c hc
  have hall : ∀ c ∈ [' ', ',', ']', '\x7d', '\n'], c.isDigit = false ∧ c ≠ '_' := by decide
  exact hall c (h c hc)

theorem endsNumber_of_endsValue {rest : List Char} (h : EndsValue rest) : ∀ c ∈ rest.head?, c ≠ 'e' ∧ c ≠ 'E' := by
  intro c hc
  have hall : ∀ c ∈ [' ', ',', ']', '\x7d', '\n'], c ≠ 'e' ∧ c ≠ 'E' := by decide
  exact hall c (h c hc)

theorem noPoint_of_endsValue {rest : List Char} (h : EndsValue rest) : rest.head? ≠ some '.' := by
  intro hc
  have hmem := h '.' hc
  revert hmem
  decide

theorem decimal?_int {whole rest : List Char} (hw : WholeText whole) (hr : EndsValue rest) (negative : Bool) :
    decimal? negative (whole ++ rest)
      = (signedInt? (if negative then -(natOfDigits whole : Int) else natOfDigits whole)).map (·, rest) := by
  simp only [decimal?, whole?_append hw (endsDigits_of_endsValue hr), fraction?_none (noPoint_of_endsValue hr),
    exponent?_none (endsNumber_of_endsValue hr), Option.bind_eq_bind, Option.bind_some]
  cases signedInt? (if negative then -(natOfDigits whole : Int) else natOfDigits whole) <;> rfl

theorem decimal?_float {cs rest : List Char} {d : Decimal} (h : FloatText cs d) (hr : EndsValue rest) (negative : Bool)
    (hx : d.toBinary64 negative ≠ .infinite false) :
    decimal? negative (cs ++ rest) = some (.ofReal (d.toBinary64 negative), rest) := by
  obtain ⟨hw, hp, hpoint, he, hne⟩ := h
  rename_i whole point part e k
  have hrest := endsDigits_of_endsValue hr
  have hrest' := endsNumber_of_endsValue hr
  obtain ⟨exponent, hexp, hk, hnone⟩ := exponent?_append he hrest hrest'
  have hafter : EndsDigits (e ++ rest) ∧ (e ++ rest).head? ≠ some '.' := by
    cases he with
    | none => exact ⟨hrest, noPoint_of_endsValue hr⟩
    | some hm _ _ _ =>
      simp only [EndsDigits, List.cons_append, List.head?_cons, Option.mem_some_iff]
      rcases hm with rfl | rfl <;> simp
  have hwhole : EndsDigits (point ++ (part ++ (e ++ rest))) := by
    rcases hpoint with ⟨rfl, -⟩ | ⟨rfl, rfl⟩
    · intro c hc
      simp only [List.singleton_append, List.head?_cons, Option.mem_some_iff] at hc
      subst hc
      decide
    · exact hafter.1
  have hfraction : fraction? (point ++ (part ++ (e ++ rest))) = some (part, e ++ rest) := by
    rcases hpoint with ⟨rfl, hpart⟩ | ⟨rfl, rfl⟩
    · exact fraction?_append hp hpart hafter.1
    · exact fraction?_none hafter.2
  have hkind : ¬(part = [] ∧ exponent = none) := by
    rintro ⟨hpart, hexponent⟩
    rcases hne with h | h
    · rcases hpoint with ⟨-, hpart'⟩ | ⟨hpoint, -⟩
      · exact hpart' hpart
      · exact h hpoint
    · exact h (hnone.1 hexponent)
  simp only [decimal?, List.append_assoc, whole?_append hw hwhole, hfraction, hexp, hk, hkind, if_false,
    Option.bind_eq_bind, Option.bind_some]
  rw [if_neg hx]
  rfl

/-! ## Numbers among other values -/

/-- Digits without an idle zero and what may follow them in or after a number. -/
def Numeric (cs : List Char) : Prop :=
  ∃ whole tail, cs = whole ++ tail ∧ WholeText whole ∧ ∀ c ∈ tail.head?, c ∈ [' ', ',', ']', '\x7d', '\n', '.', 'e', 'E']

theorem numeric_int {whole rest : List Char} (hw : WholeText whole) (hr : EndsValue rest) : Numeric (whole ++ rest) := by
  refine ⟨whole, rest, rfl, hw, fun c hc => ?_⟩
  have hmem := hr c hc
  simp only [List.mem_cons, List.not_mem_nil, or_false] at hmem ⊢
  rcases hmem with h | h | h | h | h <;> simp [h]

theorem numeric_float {cs : List Char} {d : Decimal} (h : FloatText cs d) (rest : List Char) : Numeric (cs ++ rest) := by
  obtain ⟨hw, -, hpoint, he, hne⟩ := h
  refine ⟨_, _, List.append_assoc _ _ _, hw, fun c hc => ?_⟩
  rcases hpoint with ⟨rfl, -⟩ | ⟨rfl, rfl⟩
  · simp only [List.cons_append, List.head?_cons, Option.mem_some_iff] at hc
    simp [← hc]
  · cases he with
    | none =>
      rcases hne with h | h
      · exact absurd rfl h
      · exact absurd rfl h
    | some hm _ _ _ =>
      simp only [List.nil_append, List.cons_append, List.head?_cons, Option.mem_some_iff] at hc
      rcases hm with rfl | rfl <;> simp [← hc]

/-- What begins like a date or a time has a digit first, and a colon or a dash after its digits. -/
theorem startsMoment_spec {cs : List Char} (h : startsMoment cs = true) :
    (∃ c rest, cs = c :: rest ∧ c.isDigit = true) ∧
      ∃ c rest, cs.dropWhile Char.isDigit = c :: rest ∧ (c = ':' ∨ c = '-') := by
  unfold startsMoment at h
  split at h
  · rename_i tail
    simp only [Bool.and_eq_true] at h
    obtain ⟨h1, h2⟩ := h
    exact ⟨⟨_, _, rfl, h1⟩, ':', tail, by simp [h1, h2], .inl rfl⟩
  · rename_i tail _
    simp only [Bool.and_eq_true] at h
    obtain ⟨⟨⟨h1, h2⟩, h3⟩, h4⟩ := h
    exact ⟨⟨_, _, rfl, h1⟩, '-', tail, by simp [h1, h2, h3, h4], .inr rfl⟩
  · cases h

section

variable {body : List Char} (hb : Numeric body) (negative : Bool)

include hb

theorem Numeric.noMoment : startsMoment (minus negative ++ body) = false := by
  rw [← Bool.not_eq_true]
  intro h
  obtain ⟨⟨c, cs, hc, hdigit⟩, c', rest, hdrop, hmark⟩ := startsMoment_spec h
  obtain ⟨whole, tail, rfl, hw, htail⟩ := hb
  cases negative with
  | true =>
    rw [minus, if_pos rfl, List.singleton_append, List.cons.injEq] at hc
    rw [← hc.1] at hdigit
    cases hdigit
  | false =>
    rw [minus, if_neg Bool.false_ne_true, List.nil_append, List.dropWhile_append_of_pos hw.digits] at hdrop
    have hsub : tail.dropWhile Char.isDigit = tail := by
      cases tail with
      | nil => rfl
      | cons x tail =>
        have hall : ∀ c ∈ [' ', ',', ']', '\x7d', '\n', '.', 'e', 'E'], c.isDigit = false := by decide
        simp [hall x (htail x rfl)]
    rw [hsub] at hdrop
    have hmem := htail c' (by rw [hdrop]; rfl)
    rcases hmark with rfl | rfl <;> revert hmem <;> decide

theorem Numeric.number? : number? (minus negative ++ body) = decimal? negative body := by
  obtain ⟨whole, tail, rfl, hw, htail⟩ := hb
  have hfirst : NoSignFirst (whole ++ tail) := noSignFirst_of_digits hw.ne_nil hw.digits
  have hsign := sign_append (signText_minus negative) hfirst
  have hword : notFinite? (whole ++ tail) = none := by
    obtain ⟨c, cs, hc⟩ := List.exists_cons_of_ne_nil hw.ne_nil
    have hdigit : c.isDigit = true := hw.digits c (by simp [hc])
    rw [hc]
    unfold notFinite?
    split
    · simp_all
    · simp_all
    · rfl
  have hplain : ∀ c cs, minus negative ++ (whole ++ tail) = '0' :: c :: cs → c ∉ ['x', 'o', 'b'] := by
    intro c cs hc hbase
    cases negative with
    | true => simp [minus] at hc
    | false =>
      rcases hw.proper with rfl | ⟨x, ds, rfl, hne⟩
      · simp only [minus, Bool.false_eq_true, if_false, List.nil_append, List.singleton_append, List.cons.injEq] at hc
        have hmem := htail c (by rw [hc.2]; rfl)
        simp only [List.mem_cons, List.not_mem_nil, or_false] at hbase
        rcases hbase with rfl | rfl | rfl <;> revert hmem <;> decide
      · simp [minus, hne] at hc
  unfold Toml.number?
  split
  · rename_i heq
    exact absurd (by simp) (hplain _ _ heq)
  · rename_i heq
    exact absurd (by simp) (hplain _ _ heq)
  · rename_i heq
    exact absurd (by simp) (hplain _ _ heq)
  · simp only [hsign, hword]

theorem Numeric.value? (depth : Nat) : value? depth (minus negative ++ body) = decimal? negative body := by
  obtain ⟨c, cs, hc, hfirst⟩ : ∃ c cs, minus negative ++ body = c :: cs ∧ (c = '-' ∨ c.isDigit = true) := by
    obtain ⟨whole, tail, rfl, hw, -⟩ := hb
    exact head_minus hw tail negative
  have hne : ∀ x ∈ ['[', '\x7b', '"', '\'', 't', 'f'], c ≠ x := by
    have hall : ∀ x ∈ ['[', '\x7b', '"', '\'', 't', 'f'], ¬(x = '-' ∨ x.isDigit = true) := by decide
    rintro x hx rfl
    exact hall c hx hfirst
  have hscalar : Toml.value? depth (c :: cs) = scalar? (c :: cs) := by
    cases depth <;> simp [Toml.value?, hne]
  have hstring : string? (c :: cs) = none := by
    simp [string?, hne]
  have hword : word? (c :: cs) = none := by
    simp [word?, hne]
  rw [hc, hscalar]
  simp only [Toml.scalar?, hstring, hword]
  rw [← hc, hb.noMoment negative, hb.number? negative]
  rfl

end

/-! ## The texts of integers and floats -/

theorem value?_intText {n : Whole} (hn : n.val < 9223372036854775808) {rest : List Char} (hr : EndsValue rest)
    (depth : Nat) : value? depth (Json.intText n.val ++ rest) = some (.int n, rest) := by
  have hwhole := wholeText_toString n.val.natAbs
  have hvalue : (if decide (n.val < 0) = true then -(n.val.natAbs : Int) else n.val.natAbs) = n.val := by
    simp only [decide_eq_true_eq]
    split <;> omega
  have hsigned : signedInt? n.val = some (.int n) := by
    rw [signedInt?, dif_pos ⟨n.property.1, hn⟩]
    rfl
  rw [intText_eq, List.append_assoc, (numeric_int hwhole hr).value?, decimal?_int hwhole hr, natOfDigits_toString, hvalue,
    hsigned, Option.map_some]

theorem value?_floatText (x : Finite64) {rest : List Char} (hr : EndsValue rest) (depth : Nat) :
    value? depth (Json.floatText x.val ++ rest) = some (.float x, rest) := by
  obtain ⟨x, hx⟩ := x
  cases x with
  | nan => cases hx
  | infinite s => cases hx
  | finite s r =>
    obtain ⟨cs, d, htext, hfloat, hd⟩ := floatText_eq s r
    have hfinite : d.toBinary64 s ≠ .infinite false := by
      rw [hd]
      exact Binary64.noConfusion
    rw [htext, List.append_assoc, (numeric_float hfloat rest).value?, decimal?_float hfloat hr s hfinite, hd,
      Tree.ofReal_of_isFinite hx]

end PhaseCert.Toml
