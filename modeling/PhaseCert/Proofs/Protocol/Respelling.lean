/-
  PhaseCert.Proofs.Protocol.Respelling — numbers given as the texts that they are written as.

  Where the schema asks for a text, a number stands for the text that it is written as; where it
  asks for a number, a text stands for the number that it spells. The two undo each other: the
  text of a number, among any blanks, holds that very double (`holdsReal_respelled`), whether the
  number is an integer, which is rounded, or a double, which is written with as few digits as it
  needs. What is kept of a document is the same with either (`essence_put`), so numbers can be
  given as their texts, as many of them as one likes (`ofDocument_of_respellings`).
-/
import PhaseCert.Proofs.Decimal.Places
import PhaseCert.Proofs.Protocol.Numbers
import PhaseCert.Proofs.Protocol.Outline

namespace PhaseCert

/-! ## The text of a number -/

namespace Numeral

/-- An integer is rounded as its decimal is. -/
theorem decimalText_intText (n : Int) :
    DecimalText (Json.intText n) (n < 0) ⟨n.natAbs, 0⟩ ∧ Decimal.toBinary64 (n < 0) ⟨n.natAbs, 0⟩ = .ofInt n := by
  constructor
  · have htext := DecimalText.mk (signText_minus (n < 0)) (allDigits_toString n.natAbs) (List.forall_mem_nil _)
      (.inl (toString_ne_nil _)) (.inr ⟨rfl, rfl⟩) .none
    simp only [List.append_nil, natOfDigits_toString] at htext
    rw [intText_eq]
    exact htext
  · rw [Decimal.toBinary64_eq]
    simp [Decimal.quotient, Binary64.ofInt]

/-- A double is the one nearest to the decimal that it is written as. -/
theorem decimalText_floatText {x : Binary64} (hx : x.isFinite = true) :
    ∃ negative d, DecimalText (Json.floatText x) negative d ∧ d.toBinary64 negative = x := by
  cases x with
  | nan => cases hx
  | infinite s => cases hx
  | finite s r =>
    obtain ⟨cs, d, htext, hfloat, hd⟩ := floatText_eq s r
    exact ⟨s, d, htext ▸ hfloat.decimalText (signText_minus s), hd⟩

end Numeral

namespace Tree

open Numeral

/-- The text of a number is the decimal that the number is read as. -/
theorem IsNumber.decimalText {n : Tree} (hn : n.IsNumber) : ∃ negative d,
    DecimalText (Json.compact n).toList negative d ∧ n.HoldsReal (d.toBinary64 negative) := by
  rcases hn with ⟨n, rfl⟩ | ⟨x, rfl⟩
  · obtain ⟨htext, hd⟩ := decimalText_intText n.val
    have hholds := HoldsReal.int n
    rw [← hd] at hholds
    refine ⟨_, _, ?_, hholds⟩
    rw [Json.compact, String.toList_ofList, Json.write]
    exact htext
  · obtain ⟨negative, d, htext, hd⟩ := decimalText_floatText x.property
    have hholds := HoldsReal.float x
    rw [← hd] at hholds
    refine ⟨negative, d, ?_, hholds⟩
    rw [Json.compact, String.toList_ofList, Json.write]
    exact htext

/-- The text of a number, among blanks, holds the number that the number itself holds. -/
theorem holdsReal_respelled {n : Tree} (hn : n.IsNumber) {s : String} {before after : List Char}
    (hs : s.toList = before ++ ((Json.compact n).toList ++ after)) (hbefore : AllBlank before) (hafter : AllBlank after) :
    ∃ x, n.HoldsReal x ∧ (text s).HoldsReal x := by
  obtain ⟨negative, d, htext, hholds⟩ := hn.decimalText
  have htrim := trimBlanks_of_blanks hs hbefore hafter (trimmed_of_forall (isBlank_decimalText htext))
  exact ⟨_, hholds, .text (htrim.symm ▸ htext) hholds.isFinite⟩

end Tree

/-- Asked for a text, a number gives the text that it is written as. -/
theorem Located.text_of_isNumber {n : Tree} (hn : n.IsNumber) (place : Place) :
    Located.text ⟨place, n⟩ = .ok (Json.compact n) := by
  rcases hn with ⟨n, rfl⟩ | ⟨x, rfl⟩
  · rfl
  · rfl

/-! ## Another spelling of the same number -/

namespace Outline

theorem spelled_of_holds {t : Tree} {x : Binary64} (h : t.HoldsReal x) : spelled t = .ofReal x := by
  rw [spelled, Located.real_of_holds h]

/-- What an outline reads at a place. -/
def at? : Outline → Place → Option Outline
  | o, [] => some o
  | record fields _, .key key :: rest => (Entries.get? key fields).bind fun o => o.at? rest
  | list item, .item _ :: rest => item.at? rest
  | _, _ :: _ => none

/-- What is kept of a tree is the same when a number in it is spelled otherwise. -/
theorem essence_put {o : Outline} {place : Place} {t v x : Tree} (ho : o.Proper) (hnumber : o.at? place = some number)
    (hv : t.at? place = some v) (hx : spelled x = spelled v) : o.essence (t.put place x) = o.essence t := by
  induction place generalizing o t with
  | nil =>
    rw [at?, Option.some.injEq] at hnumber
    rw [Tree.at?_nil, Option.some.injEq] at hv
    rw [Tree.put_nil, hnumber, hv]
    exact hx
  | cons step rest ih =>
    match o, step with
    | record fields optional, .key key =>
      obtain ⟨o', ho', hnumber⟩ := Option.bind_eq_some_iff.1 hnumber
      obtain ⟨u, hu, hrest⟩ := Option.bind_eq_some_iff.1 hv
      cases t with
      | map entries =>
        have hu : Entries.get? key entries = some u := hu
        have hmem := Entries.mem_of_get? ho'
        have he := ih (proper_of_mem ho.2 hmem) hnumber hrest
        have hput : Entries.get? key (Entries.modify key (fun w => w.put rest x) entries) = some (u.put rest x) := by
          rw [Entries.get?_modify, hu, Option.map_some, if_pos rfl]
        rw [Tree.put]
        refine essence_value ho.1 hmem hu hput he fun k hk => ?_
        rw [Entries.get?_modify]
        simp [hk]
      | _ => cases hu
    | list item, .item i =>
      have hnumber : item.at? rest = some number := hnumber
      have hitem : item.Proper := ho
      obtain ⟨u, hu, hrest⟩ := Option.bind_eq_some_iff.1 hv
      cases t with
      | seq items =>
        have he := ih hitem hnumber hrest
        rw [Tree.put]
        refine essence_items fun j => ?_
        rw [List.getElem?_modify]
        by_cases hij : i = j
        · have hu : items[j]? = some u := hij ▸ hu
          simp [hij, hu, he]
        · simp [hij]
      | _ => cases hu

/-- A document is read for a number where the schema asks for one. -/
theorem document_at? (F : RealField) (hasSection : Bool) : (document hasSection).at? F.place = some number := by
  cases F with
  | amplitude i j part => cases part <;> cases hasSection <;> rfl
  | element i j k part => cases part <;> cases hasSection <;> rfl
  | _ => cases hasSection <;> rfl

end Outline

namespace Protocol

/-- A number that the schema asks for is given as the text that it is written as, among any blanks. -/
inductive Respelling (document : Tree) : Tree → Prop
  | mk {F : RealField} {n : Tree} {text s : String} {before after : List Char} :
    document.at? F.place = some n → n.IsNumber → Located.text ⟨F.place, n⟩ = .ok text →
      s.toList = before ++ (text.toList ++ after) → AllBlank before → AllBlank after →
        Respelling document (document.put F.place (.text s))

theorem Respelling.ofTree_eq {document document' : Tree} (h : Respelling document document') :
    ofTree document' = ofTree document := by
  obtain ⟨hat, hn, htext, hs, hbefore, hafter⟩ := h
  rw [Located.text_of_isNumber hn, Except.ok.injEq] at htext
  subst htext
  obtain ⟨x, hx, hx'⟩ := Tree.holdsReal_respelled hn hs hbefore hafter
  refine Outline.ofTree_of_essence (Outline.essence_put (Outline.document_proper _) (Outline.document_at? _ _) hat ?_)
  rw [Outline.spelled_of_holds hx', Outline.spelled_of_holds hx]

/-- A document is read as before, bit for bit, when any of the numbers that the schema asks for
    are given as the texts that they are written as, among any blanks. -/
theorem ofDocument_of_respellings {document document' : Tree} (h : Relation.ReflTransGen Respelling document document') :
    ofDocument document' = ofDocument document ∧
      ∀ place n, n.IsNumber → Located.text ⟨place, n⟩ = .ok (Json.compact n) := by
  refine ⟨?_, fun place n hn => Located.text_of_isNumber hn place⟩
  induction h with
  | refl => rfl
  | tail _ hstep ih => rw [← ih, ofDocument, hstep.ofTree_eq, ofDocument]

/-- A prior that no double is equal to. -/
def largestPrior : Tree := twoState.document.put (RealField.prior 1).place largest

/-- The same with two of its numbers given as texts. -/
def largestPriorSpelled : Tree :=
  (largestPrior.put (RealField.prior 1).place (.text "\t18446744073709551615 ")).put RealField.eta.place
    (.text "\u00a01.0\n")

/-- The integer is rounded and the text of the integer is, to the same double. -/
theorem ofDocument_of_respellings_largest : Relation.ReflTransGen Respelling largestPrior largestPriorSpelled ∧
    ∃ p, ofDocument largestPrior = .ok p ∧ ofDocument largestPriorSpelled = .ok p := by
  have hprior : Respelling largestPrior (largestPrior.put (RealField.prior 1).place (.text "\t18446744073709551615 ")) := by
    have htext : Located.text ⟨(RealField.prior 1).place, largest⟩ = .ok "18446744073709551615" := by decide +kernel
    have hs : "\t18446744073709551615 ".toList = ['\t'] ++ ("18446744073709551615".toList ++ [' ']) := by decide
    refine .mk rfl (.inl ⟨_, rfl⟩) htext hs ?_ ?_
    · exact List.forall_mem_singleton.2 rfl
    · exact List.forall_mem_singleton.2 rfl
  have heta : Respelling (largestPrior.put (RealField.prior 1).place (.text "\t18446744073709551615 "))
      largestPriorSpelled := by
    have htext : Located.text ⟨RealField.eta.place, .float ⟨.one, rfl⟩⟩ = .ok "1.0" := by decide +kernel
    have hs : "\u00a01.0\n".toList = ['\u00a0'] ++ ("1.0".toList ++ ['\n']) := by decide
    refine .mk rfl (.inr ⟨_, rfl⟩) htext hs ?_ ?_
    · exact List.forall_mem_singleton.2 rfl
    · exact List.forall_mem_singleton.2 rfl
  have hsteps := (Relation.ReflTransGen.single hprior).tail heta
  have hvalid : ValidBut twoState.document (RealField.prior 1).place := validBut_twoState rfl
  obtain ⟨p, hp⟩ := hvalid.loads rfl (takes_real (x := largest) (Or.inl ⟨_, rfl⟩) (.prior 1))
  exact ⟨hsteps, p, hp, (ofDocument_of_respellings hsteps).1.trans hp⟩

end Protocol

end PhaseCert
