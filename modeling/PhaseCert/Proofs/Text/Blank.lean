/-
  PhaseCert.Proofs.Text.Blank — a text without the white space around it.

  A text is blanks, something that neither begins nor ends with a blank, and blanks. What is in
  the middle is the same however the text is split in this way, and it is what trimming leaves
  (`stripped_iff`).
-/
import Mathlib.Data.List.Basic
import PhaseCert.Text.Blank

namespace PhaseCert

def AllBlank (cs : List Char) : Prop := ∀ c ∈ cs, isBlank c = true

/-- Characters that neither begin nor end with a blank. -/
structure Trimmed (cs : List Char) : Prop where
  head : ∀ c ∈ cs.head?, isBlank c = false
  last : ∀ c ∈ cs.getLast?, isBlank c = false

theorem trimmed_of_forall {cs : List Char} (h : ∀ c ∈ cs, isBlank c = false) : Trimmed cs where
  head c hc := h c (List.mem_of_mem_head? hc)
  last c hc := h c (List.mem_of_getLast? hc)

/-- The second text is the first without the blanks around it. -/
def Stripped (s t : String) : Prop :=
  ∃ before after, s.toList = before ++ (t.toList ++ after) ∧ AllBlank before ∧ AllBlank after ∧ Trimmed t.toList

theorem dropWhile_blanks {bs cs : List Char} (hb : AllBlank bs) (hc : ∀ c ∈ cs.head?, isBlank c = false) :
    (bs ++ cs).dropWhile isBlank = cs := by
  rw [List.dropWhile_append_of_pos hb]
  cases cs with
  | nil => rfl
  | cons c cs => rw [List.dropWhile_cons_of_neg (by rw [hc c rfl]; exact Bool.false_ne_true)]

/-- Blanks, and then what does not begin with a blank. -/
theorem exists_blanks_dropWhile (cs : List Char) :
    ∃ bs, cs = bs ++ cs.dropWhile isBlank ∧ AllBlank bs ∧ ∀ c ∈ (cs.dropWhile isBlank).head?, isBlank c = false := by
  refine ⟨cs.takeWhile isBlank, List.takeWhile_append_dropWhile.symm, List.all_eq_true.1 List.all_takeWhile, ?_⟩
  intro c hc
  have h := List.head?_dropWhile_not isBlank cs
  rw [Option.mem_def.1 hc] at h
  simpa using h

theorem trimBlanks_of_blanks {s : String} {before cs after : List Char} (hs : s.toList = before ++ (cs ++ after))
    (hbefore : AllBlank before) (hafter : AllBlank after) (hcs : Trimmed cs) : (trimBlanks s).toList = cs := by
  rw [trimBlanks, String.toList_ofList, dropBlankEnd, hs]
  by_cases hnil : cs = []
  · have hblank : AllBlank (before ++ after) := List.forall_mem_append.2 ⟨hbefore, hafter⟩
    rw [hnil, List.nil_append, ← List.append_nil (before ++ after), dropWhile_blanks hblank (by simp)]
    rfl
  · rw [dropWhile_blanks hbefore, List.reverse_append, dropWhile_blanks, List.reverse_reverse]
    · intro c hc
      exact hafter c (List.mem_reverse.1 hc)
    · rw [List.head?_reverse]
      exact hcs.last
    · rw [List.head?_append_of_ne_nil _ hnil]
      exact hcs.head

theorem stripped_trimBlanks (s : String) : Stripped s (trimBlanks s) := by
  obtain ⟨before, hs, hbefore, hhead⟩ := exists_blanks_dropWhile s.toList
  obtain ⟨after, hrest, hafter, hlast⟩ := exists_blanks_dropWhile (s.toList.dropWhile isBlank).reverse
  unfold Stripped
  rw [trimBlanks, String.toList_ofList, dropBlankEnd]
  generalize s.toList.dropWhile isBlank = rest at hs hhead hrest hlast ⊢
  generalize rest.reverse.dropWhile isBlank = middle at hrest hlast ⊢
  have hrest : rest = middle.reverse ++ after.reverse := by
    rw [← List.reverse_append, ← hrest, List.reverse_reverse]
  refine ⟨before, after.reverse, hrest ▸ hs, hbefore, fun c hc => hafter c (List.mem_reverse.1 hc), ?_, ?_⟩
  · intro c hc
    apply hhead
    rwa [hrest, List.head?_append_of_ne_nil]
    rintro hnil
    rw [hnil] at hc
    cases hc
  · rwa [List.getLast?_reverse]

/-- Trimming leaves what stands between the blanks. -/
theorem stripped_iff {s t : String} : Stripped s t ↔ trimBlanks s = t := by
  constructor
  · rintro ⟨before, after, hs, hbefore, hafter, ht⟩
    exact String.toList_inj.1 (trimBlanks_of_blanks hs hbefore hafter ht)
  · rintro rfl
    exact stripped_trimBlanks s

theorem Stripped.unique {s t t' : String} (h : Stripped s t) (h' : Stripped s t') : t = t' :=
  (stripped_iff.1 h).symm.trans (stripped_iff.1 h')

/-- Nothing is left of blanks, and only of blanks. -/
theorem trimBlanks_eq_empty_iff {s : String} : trimBlanks s = "" ↔ AllBlank s.toList := by
  rw [← stripped_iff]
  constructor
  · rintro ⟨before, after, hs, hbefore, hafter, -⟩
    rw [hs]
    exact List.forall_mem_append.2 ⟨hbefore, hafter⟩
  · intro h
    exact ⟨s.toList, [], by simp, h, List.forall_mem_nil _, by simp, by simp⟩

end PhaseCert
