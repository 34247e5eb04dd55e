/-
  PhaseCert.Proofs.Protocol.Numerals — the texts that are read as numbers.

  `SpellsReal` says which number a text is, without a reader: what stands between the blanks is a
  numeral (`Spells`), and of all doubles the one nearest to the numeral's exact value is this one,
  and is finite. It has the sign that is written, so a negative zero and what is rounded to one are
  -0.0. Those are the numbers that a text in a document holds (`spellsReal_iff_holdsReal`).

  Where the schema asks for a number, and where a text among the parameters is looked up as a real,
  just these texts are taken, each as the number that it spells (`read_iff_spellsReal`). `Refused`
  lists what other readers take and these do not: the words for NaN and the infinities, hexadecimal
  numerals, blanks inside, characters that no numeral has, and decimals that overflow.
-/
import PhaseCert.Proofs.Binary64.Overflow
import PhaseCert.Proofs.Decimal.Places
import PhaseCert.Proofs.Parameters
import PhaseCert.Proofs.Protocol.Numbers

namespace PhaseCert

/-! ## Faults -/

/-- What is not a number is a fault of the place where it stands. -/
theorem Located.place_of_real {t : Located} {f : Fault} (h : t.real = .error f) : f.place = t.place := by
  have hreports := real_reports t
  rw [h] at hreports
  obtain ⟨before, c, after, hchecks, -, -, hplace⟩ := hreports
  have hc : c ∈ Schema.real.checks t := by
    rw [hchecks]
    simp
  rw [Schema.real, Schema.checks, List.mem_singleton] at hc
  rw [← hplace, hc]

namespace Numeral

open Binary64

/-! ## What a text spells -/

/-- Between the blanks stands a numeral of this sign, and this is its exact value. -/
def Spells (s : String) (negative : Bool) (q : ℚ) : Prop :=
  ∃ t d, Stripped s t ∧ DecimalText t.toList negative d ∧ q = if negative then -d.toRat else d.toRat

/-- The double nearest to what the text spells is this one, and is finite. -/
def SpellsReal (s : String) (x : Binary64) : Prop :=
  x.isFinite = true ∧ ∃ negative q, Spells s negative q ∧ Nearest negative q x

/-- There is one double nearest to what is spelled, an infinity at the worst. -/
theorem Spells.existsUnique_nearest {s : String} {negative : Bool} {q : ℚ} (h : Spells s negative q) :
    ∃! x, Nearest negative q x := by
  obtain ⟨t, d, -, -, rfl⟩ := h
  have hnearest := Decimal.nearest_toBinary64 negative d
  exact ⟨_, hnearest, fun y hy => hy.unique hnearest⟩

/-- A text spells the number that it holds in a document. -/
theorem spellsReal_iff_holdsReal {s : String} {x : Binary64} : SpellsReal s x ↔ (Tree.text s).HoldsReal x := by
  constructor
  · rintro ⟨hx, negative, q, ⟨t, d, ht, hd, rfl⟩, hnearest⟩
    obtain rfl := hnearest.unique (Decimal.nearest_toBinary64 negative d)
    rw [← stripped_iff.1 ht] at hd
    exact .text hd hx
  · intro h
    cases h with
    | text hd hx => exact ⟨hx, _, _, ⟨_, _, stripped_trimBlanks s, hd, rfl⟩, Decimal.nearest_toBinary64 _ _⟩

/-! ## What is refused -/

/-- What may stand between blanks in place of a numeral and is no number. -/
inductive Refused : List Char → Prop
  /-- NaN or an infinity, in small or capital letters, with a sign or without. -/
  | word {sign w : List Char} {negative : Bool} : SignText sign negative →
    w.map Char.toLower ∈ ["nan".toList, "inf".toList, "infinity".toList] → Refused (sign ++ w)
  /-- A hexadecimal numeral. -/
  | hexadecimal {sign rest : List Char} {negative : Bool} {mark : Char} : SignText sign negative →
    mark = 'x' ∨ mark = 'X' → Refused (sign ++ '0' :: mark :: rest)
  /-- A blank among other characters. -/
  | spaced {before after : List Char} {c : Char} : isBlank c = true → Refused (before ++ c :: after)
  /-- A character that no numeral has, as other names for NaN and the infinities have. -/
  | foreign {before after : List Char} {c : Char} : c.isDigit = false → c ∉ ['+', '-', '.', 'e', 'E'] →
    Refused (before ++ c :: after)
  /-- A decimal that is too large. -/
  | overflow {cs : List Char} {negative : Bool} {d : Decimal} : DecimalText cs negative d →
    Binary64.overflow ≤ d.toRat → Refused cs

theorem not_decimalText_word {sign w : List Char} {negative : Bool} {d : Decimal}
    (hw : w.map Char.toLower ∈ ["nan".toList, "inf".toList, "infinity".toList]) :
    ¬DecimalText (sign ++ w) negative d := by
  intro h
  -- the first letter of each word is no character of a numeral
  obtain ⟨c, hc, hlower⟩ : ∃ c ∈ w, c.toLower = 'n' ∨ c.toLower = 'i' := by
    cases w with
    | nil => exact absurd hw (by decide)
    | cons c w =>
      refine ⟨c, List.mem_cons_self, ?_⟩
      simp only [List.mem_cons, List.not_mem_nil, or_false] at hw
      rcases hw with hw | hw | hw
      · exact .inl (List.cons.inj hw).1
      · exact .inr (List.cons.inj hw).1
      · exact .inr (List.cons.inj hw).1
  have hchars := forall_mem_decimalText (P := fun c => c.toLower ≠ 'n' ∧ c.toLower ≠ 'i') (by decide) (by decide) h
  obtain ⟨hn, hi⟩ := hchars c (List.mem_append_right sign hc)
  rcases hlower with hlower | hlower
  · exact hn hlower
  · exact hi hlower

theorem not_decimalText_hexadecimal {sign rest : List Char} {mark : Char} {negative : Bool} {d : Decimal}
    (hmark : mark = 'x' ∨ mark = 'X') : ¬DecimalText (sign ++ '0' :: mark :: rest) negative d := by
  intro h
  have hchars := forall_mem_decimalText (P := fun c => c ≠ 'x' ∧ c ≠ 'X') (by decide) (by decide) h
  obtain ⟨hx, hX⟩ := hchars mark (by simp)
  rcases hmark with hmark | hmark
  · exact hx hmark
  · exact hX hmark

/-- What is refused spells no number. -/
theorem Refused.not_spellsReal {s t : String} (ht : Stripped s t) (h : Refused t.toList) (x : Binary64) :
    ¬SpellsReal s x := by
  rintro ⟨hx, negative, q, ⟨t', d, ht', hd, rfl⟩, hnearest⟩
  obtain rfl : t = t' := ht.unique ht'
  generalize t.toList = cs at h hd
  cases h with
  | word _ hw => exact not_decimalText_word hw hd
  | hexadecimal _ hmark => exact not_decimalText_hexadecimal hmark hd
  | spaced hc =>
    rw [isBlank_decimalText hd _ (by simp)] at hc
    cases hc
  | @foreign _ _ c hdigit hmarks =>
    rcases decimalText_chars hd c (by simp) with hc | hc
    · rw [hdigit] at hc
      cases hc
    · exact hmarks hc
  | overflow hd' hle =>
    obtain ⟨rfl, rfl⟩ := decimalText_unique hd hd'
    cases hnearest with
    | finite hlt _ =>
      rw [Decimal.abs_signed] at hlt
      exact absurd hlt (not_lt.2 hle)
    | infinite _ => cases hx

/-! ## What is read -/

theorem real_eq_ok_iff {place : Place} {s : String} {x : Binary64} :
    Located.real ⟨place, .text s⟩ = .ok x ↔ SpellsReal s x := by
  rw [spellsReal_iff_holdsReal]
  exact ⟨Located.real_ok, fun h => Located.real_of_holds h place⟩

theorem realOr_eq_ok_iff {ps : Parameters} {key s : String} (h : ps.get? key = some (.text s)) {default x : Binary64} :
    ps.realOr key default = .ok x ↔ SpellsReal s x := by
  rw [spellsReal_iff_holdsReal, Parameters.realOr_eq_ok h]
  exact ParamValue.real?_eq_some_iff rfl

/-! ## Where numbers are asked for -/

section

variable {s : String} {document : Tree} {F : RealField} (hF : Protocol.ValidBut document F.place)

include hF

theorem spellsReal_of_ofDocument {p : Protocol} (hp : Protocol.ofDocument (document.put F.place (.text s)) = .ok p) :
    ∃ x, F.value? p = some x ∧ SpellsReal s x := by
  obtain ⟨x, hx, hholds⟩ := (Protocol.ofDocument_ok_iff.1 hp).value?_at F (Tree.at?_put _ hF.stands)
  exact ⟨x, hx, spellsReal_iff_holdsReal.2 hholds⟩

theorem ofDocument_of_spellsReal {x : Binary64} (hx : SpellsReal s x) :
    ∃ p, Protocol.ofDocument (document.put F.place (.text s)) = .ok p ∧ F.value? p = some x := by
  obtain ⟨p, hp⟩ := hF.loads rfl (Protocol.takes_real (spellsReal_iff_holdsReal.1 hx).isReal F)
  obtain ⟨y, hy, hs⟩ := spellsReal_of_ofDocument hF hp
  -- one text spells one number
  have hread : Located.real ⟨F.place, .text s⟩ = .ok x := real_eq_ok_iff.2 hx
  rw [real_eq_ok_iff.2 hs, Except.ok.injEq] at hread
  exact ⟨p, hp, hread ▸ hy⟩

end

section

variable {s t : String} (ht : Stripped s t) (h : Refused t.toList)

include ht h

theorem Refused.real_error (place : Place) : ∃ cause, Located.real ⟨place, .text s⟩ = .error ⟨place, cause⟩ := by
  cases hread : Located.real ⟨place, .text s⟩ with
  | ok x => exact absurd (real_eq_ok_iff.1 hread) (h.not_spellsReal ht x)
  | error f =>
    have hplace : f.place = place := Located.place_of_real hread
    exact ⟨f.cause, by rw [← hplace]⟩

theorem Refused.realOr_error {ps : Parameters} {key : String} (hs : ps.get? key = some (.text s)) (default : Binary64) :
    ∃ cause, ps.realOr key default = .error ⟨Parameters.place key, cause⟩ := by
  cases hread : ps.realOr key default with
  | ok x => exact absurd ((realOr_eq_ok_iff hs).1 hread) (h.not_spellsReal ht x)
  | error f =>
    have hplace := Parameters.place_of_realOr hread
    exact ⟨f.cause, by rw [← hplace]⟩

end

/-- A text where the schema asks for a number, and one that is looked up as a real, is taken exactly
    if it is a numeral among blanks whose nearest double is finite, and as that double. What is
    refused is a fault of the place where it stands. -/
theorem read_iff_spellsReal (s : String) :
    (∀ place x, Located.real ⟨place, .text s⟩ = .ok x ↔ SpellsReal s x) ∧
      (∀ document (F : RealField), Protocol.ValidBut document F.place →
        (∀ x, SpellsReal s x →
          ∃ p, Protocol.ofDocument (document.put F.place (.text s)) = .ok p ∧ F.value? p = some x) ∧
        ∀ p, Protocol.ofDocument (document.put F.place (.text s)) = .ok p →
          ∃ x, F.value? p = some x ∧ SpellsReal s x) ∧
      (∀ (ps : Parameters) key, ps.get? key = some (.text s) → ∀ default x,
        ps.realOr key default = .ok x ↔ SpellsReal s x) ∧
      (∀ negative q, Spells s negative q → ∃! x, Nearest negative q x) ∧
      ∀ t, Stripped s t → Refused t.toList →
        (∀ place, ∃ cause, Located.real ⟨place, .text s⟩ = .error ⟨place, cause⟩) ∧
          ∀ (ps : Parameters) key, ps.get? key = some (.text s) → ∀ default,
            ∃ cause, ps.realOr key default = .error ⟨Parameters.place key, cause⟩ := by
  refine ⟨?_, ?_, ?_, ?_, ?_⟩
  · intro place x
    exact real_eq_ok_iff
  · intro document F hF
    exact ⟨fun x hx => ofDocument_of_spellsReal hF hx, fun p hp => spellsReal_of_ofDocument hF hp⟩
  · intro ps key hs default x
    exact realOr_eq_ok_iff hs
  · intro negative q hq
    exact hq.existsUnique_nearest
  · intro t ht hrefused
    exact ⟨hrefused.real_error ht, fun ps key hs default => hrefused.realOr_error ht hs default⟩

/-- A little less than half of the least positive double, with a minus, among blanks. -/
def tinyText : String := "\u00a0-2.4703282292062327e-324\t"

/-- A decimal of 17 digits past the overflow; the one before it is not. -/
def hugeText : String := " +17976931348623159E292\n"

/-- The first is -0.0 as epsilon and as a prior, the second is refused. -/
theorem read_iff_spellsReal_ends :
    Protocol.ValidBut Protocol.twoState.document RealField.epsilon.place ∧ SpellsReal tinyText (.neg .zero) ∧
      (∃ p, Protocol.ofDocument (Protocol.twoState.document.put RealField.epsilon.place (.text tinyText)) = .ok p ∧
        RealField.epsilon.value? p = some (.neg .zero)) ∧
      Parameters.realOr (.ofList [("p_psi0", .text tinyText)]) "p_psi0" .half = .ok (.neg .zero) ∧
      (∃ q, Spells tinyText true q ∧ ∃! x, Nearest true q x) ∧
      Stripped hugeText "+17976931348623159E292" ∧ Refused "+17976931348623159E292".toList ∧
      ∃ cause, Parameters.realOr (.ofList [("p_psi0", .text hugeText)]) "p_psi0" .half =
        .error ⟨Parameters.place "p_psi0", cause⟩ := by
  have hvalid : Protocol.ValidBut Protocol.twoState.document RealField.epsilon.place := Protocol.validBut_twoState rfl
  have hstripped : Stripped tinyText "-2.4703282292062327e-324" := stripped_iff.2 (by decide)
  have htiny : DecimalText "-2.4703282292062327e-324".toList true ⟨24703282292062327, -340⟩ :=
    decimalText_iff.2 ⟨by decide, by decide⟩
  have hzero : Decimal.toBinary64 true ⟨24703282292062327, -340⟩ = .neg .zero := by decide +kernel
  have hspells : Spells tinyText true _ := ⟨_, _, hstripped, htiny, rfl⟩
  have hnearest := Decimal.nearest_toBinary64 true ⟨24703282292062327, -340⟩
  rw [hzero] at hnearest
  have hreal : SpellsReal tinyText (.neg .zero) := ⟨rfl, _, _, hspells, hnearest⟩
  have hhuge : DecimalText "+17976931348623159E292".toList false ⟨17976931348623159, 292⟩ :=
    decimalText_iff.2 ⟨by decide, by decide⟩
  have hinfinite : ¬(Decimal.toBinary64 false ⟨17976931348623159, 292⟩).isFinite = true := by decide +kernel
  have hoverflow := not_lt.1 fun h => hinfinite (Decimal.isFinite_toBinary64_iff.2 h)
  have hends : Stripped hugeText "+17976931348623159E292" := stripped_iff.2 (by decide)
  obtain ⟨-, hdocument, hlookup, hunique, -⟩ := read_iff_spellsReal tinyText
  obtain ⟨-, -, -, -, hrefused⟩ := read_iff_spellsReal hugeText
  refine ⟨hvalid, hreal, (hdocument _ .epsilon hvalid).1 _ hreal, (hlookup _ "p_psi0" rfl .half _).2 hreal,
    ⟨_, hspells, hunique _ _ hspells⟩, hends, .overflow hhuge hoverflow, ?_⟩
  exact (hrefused _ hends (.overflow hhuge hoverflow)).2 _ "p_psi0" rfl .half

end Numeral

end PhaseCert
