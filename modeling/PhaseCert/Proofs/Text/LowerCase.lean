/-
  PhaseCert.Proofs.Text.LowerCase — words that only their own letters lower-case to.

  Outside ASCII, the Kelvin sign alone lower-cases to an ASCII letter, and the capital I with a
  dot to one with a mark after it. So a text lower-cases to a word of ASCII letters without a k
  exactly if it is that word in another letter case (`lowerCase_eq_iff`).
-/
import PhaseCert.Text.LowerCase

namespace PhaseCert

/-- A small ASCII letter that no other letter than its own capital lower-cases to. -/
def isOwnLetter (c : Char) : Bool := c.isLower && c ≠ 'k'

theorem toNat_lt_of_isOwnLetter {c : Char} (h : isOwnLetter c = true) : c.toNat < 128 := by
  rw [isOwnLetter, Bool.and_eq_true] at h
  have hletter : (decide (c.val ≥ 'a'.val) && decide (c.val ≤ 'z'.val)) = true := h.1
  rw [Bool.and_eq_true] at hletter
  have hz : c.toNat ≤ 122 := UInt32.le_iff_toNat_le.1 (of_decide_eq_true hletter.2)
  omega

/-! ## Characters -/

theorem lowerChar_ascii {c : Char} (h : c.toNat < 128) : lowerChar c = [c.toLower] := by
  have hall : ∀ n < 128, lowerChar (Char.ofNat n) = [(Char.ofNat n).toLower] := by decide +kernel
  have := hall c.toNat h
  rwa [Char.ofNat_toNat] at this

theorem toLower_of_not_ascii {c : Char} (h : 128 ≤ c.toNat) : c.toLower = c := by
  refine dif_neg ?_
  rintro ⟨-, hz⟩
  have hz : c.toNat ≤ 90 := UInt32.le_iff_toNat_le.1 hz
  omega

/-- From outside ASCII only the Kelvin sign leads into it. -/
theorem caseRuns_outside : ∀ r ∈ caseRuns,
    r.last < 128 ∨ (r.first = 0x212a ∧ r.last = 0x212a ∧ r.shift = -8383) ∨ 128 ≤ r.first + r.shift := by
  decide +kernel

theorem exists_not_isOwnLetter {c : Char} (h : 128 ≤ c.toNat) : ∃ d ∈ lowerChar c, isOwnLetter d = false := by
  have houtside : ∀ d : Char, 128 ≤ d.toNat → isOwnLetter d = false := by
    intro d hd
    rw [Bool.eq_false_iff]
    intro ho
    exact Nat.not_lt.2 hd (toNat_lt_of_isOwnLetter ho)
  unfold lowerChar
  split
  · exact ⟨'\u0307', by simp, by decide⟩
  split
  · rename_i r hr
    refine ⟨_, List.mem_singleton_self _, ?_⟩
    have hcovers := List.find?_some hr
    simp only [CaseRun.covers, Bool.and_eq_true, decide_eq_true_eq] at hcovers
    obtain ⟨⟨hfirst, hlast⟩, -⟩ := hcovers
    rcases caseRuns_outside r (List.mem_of_find?_eq_some hr) with hascii | ⟨hf, hl, hs⟩ | hrun
    · omega
    · have hc : c.toNat = 0x212a := by omega
      rw [hc, hs]
      decide
    · generalize hn : (c.toNat + r.shift).toNat = n
      have hlarge : 128 ≤ n := by omega
      by_cases hv : n.isValidChar
      · apply houtside
        rw [Char.ofNat, dif_pos hv]
        exact hlarge
      · rw [Char.ofNat, dif_neg hv]
        decide
  · exact ⟨c, List.mem_singleton_self c, houtside c h⟩

/-! ## Texts -/

theorem flatMap_lowerChar {cs : List Char} (h : ∀ c ∈ cs, c.toNat < 128) : cs.flatMap lowerChar = cs.map Char.toLower := by
  induction cs with
  | nil => rfl
  | cons c cs ih =>
    rw [List.forall_mem_cons] at h
    rw [List.flatMap_cons, lowerChar_ascii h.1, ih h.2]
    rfl

/-- A text lower-cases to such a word exactly if its ASCII letters do. -/
theorem lowerCase_eq_iff {s word : String} (hword : ∀ c ∈ word.toList, isOwnLetter c = true) :
    lowerCase s = word ↔ s.toLower = word := by
  have hlower : s.toLower.toList = s.toList.map Char.toLower := String.toList_map
  rw [← String.toList_inj, ← String.toList_inj, lowerCase, String.toList_ofList, hlower]
  by_cases houtside : ∃ c ∈ s.toList, 128 ≤ c.toNat
  · -- such a character leaves something on both sides that the word does not have
    obtain ⟨c, hc, hout⟩ := houtside
    constructor
    · intro h
      obtain ⟨d, hd, hown⟩ := exists_not_isOwnLetter hout
      have := hword d (h ▸ List.mem_flatMap.2 ⟨c, hc, hd⟩)
      rw [hown] at this
      cases this
    · intro h
      have := hword c (h ▸ List.mem_map.2 ⟨c, hc, toLower_of_not_ascii hout⟩)
      exact absurd (toNat_lt_of_isOwnLetter this) (Nat.not_lt.2 hout)
  · rw [flatMap_lowerChar fun c hc => Nat.lt_of_not_le fun hout => houtside ⟨c, hc, hout⟩]

end PhaseCert
