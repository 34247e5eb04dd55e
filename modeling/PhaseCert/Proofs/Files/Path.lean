/-
  PhaseCert.Proofs.Files.Path — the parts of a path.

  A path's parent is its text up to a slash (`parent?_eq`), so the parent's pieces come first
  among its own. A name below a path is one more piece at the end (`pieces_join`), and it is
  the path's file name (`fileName?_join`).
-/
import PhaseCert.Files.Path

namespace PhaseCert.Path

/-! ## Pieces -/

theorem splitSlash_ne_nil (cs : List Char) : splitSlash cs ≠ [] := by
  cases cs with
  | nil => simp [splitSlash]
  | cons c cs =>
    unfold splitSlash
    split
    · simp
    · split <;> simp

theorem splitSlash_append (a b : List Char) : splitSlash (a ++ '/' :: b) = splitSlash a ++ splitSlash b := by
  induction a with
  | nil => simp [splitSlash]
  | cons c a ih =>
    rw [List.cons_append, splitSlash, splitSlash]
    by_cases hc : c = '/'
    · rw [if_pos hc, if_pos hc, ih, List.cons_append]
    · rw [if_neg hc, if_neg hc, ih]
      obtain ⟨piece, rest, hs⟩ := List.exists_cons_of_ne_nil (splitSlash_ne_nil a)
      rw [hs]
      rfl

theorem splitSlash_of_not_mem {cs : List Char} (h : '/' ∉ cs) : splitSlash cs = [cs] := by
  induction cs with
  | nil => rfl
  | cons c cs ih =>
    rw [List.mem_cons, not_or] at h
    rw [splitSlash, if_neg (Ne.symm h.1), ih h.2]

theorem pieces_append (a b : String) : (⟨a ++ "/" ++ b⟩ : Path).pieces = (⟨a⟩ : Path).pieces ++ (⟨b⟩ : Path).pieces := by
  have hslash : "/".toList = ['/'] := by decide
  simp only [pieces, String.toList_append, hslash, List.append_assoc, List.cons_append, List.nil_append,
    splitSlash_append, List.map_append]

/-- A text of one name. -/
def IsName (name : String) : Prop :=
  '/' ∉ name.toList ∧ name ≠ "" ∧ name ≠ "." ∧ name ≠ ".."

instance (name : String) : Decidable (IsName name) := inferInstanceAs (Decidable (_ ∧ _ ∧ _ ∧ _))

theorem pieces_name {name : String} (h : IsName name) : (⟨name⟩ : Path).pieces = [name] := by
  rw [pieces, splitSlash_of_not_mem h.1, List.map_cons, List.map_nil, String.ofList_toList]

/-! ## A name below a path -/

section Join

variable {p : Path} {name : String}

theorem isAbsolute_append {a : String} (ha : a ≠ "") (b : String) :
    (⟨a ++ b⟩ : Path).isAbsolute = (⟨a⟩ : Path).isAbsolute := by
  have hne : a.toList ≠ [] := by
    intro h
    exact ha (String.toList_eq_nil_iff.1 h)
  obtain ⟨c, cs, hc⟩ := List.exists_cons_of_ne_nil hne
  rw [isAbsolute, isAbsolute, String.toList_append, hc]
  rfl

/-- What a name below a path is written as. -/
theorem join_cases (p : Path) (name : String) :
    (p.text = "" ∧ p.join name = ⟨name⟩) ∨
      (∃ a, p.text = a ++ "/" ∧ p.join name = ⟨a ++ "/" ++ name⟩) ∨
        (p.text ≠ "" ∧ p.join name = ⟨p.text ++ "/" ++ name⟩) := by
  by_cases he : p.text = ""
  · refine .inl ⟨he, ?_⟩
    rw [join, if_pos (.inl he), he, String.empty_append]
  by_cases hs : p.text.toList.getLast? = some '/'
  · obtain ⟨cs, hcs⟩ := List.getLast?_eq_some_iff.1 hs
    have ht : p.text = String.ofList cs ++ "/" := by
      rw [← String.toList_inj, String.toList_append, String.toList_ofList, hcs]
      rfl
    refine .inr (.inl ⟨String.ofList cs, ht, ?_⟩)
    rw [join, if_pos (.inr hs), ht]
  · refine .inr (.inr ⟨he, ?_⟩)
    rw [join, if_neg (not_or.2 ⟨he, hs⟩)]

theorem isAbsolute_join (h : IsName name) : (p.join name).isAbsolute = p.isAbsolute := by
  rcases join_cases p name with ⟨he, hj⟩ | ⟨a, ha, hj⟩ | ⟨hne, hj⟩
  · have hp : p.isAbsolute = false := by
      rw [isAbsolute, he]
      rfl
    rw [hj, hp, isAbsolute, decide_eq_false_iff_not]
    intro hc
    exact h.1 (List.mem_of_mem_head? hc)
  · have hne : a ++ "/" ≠ "" := by
      intro he
      have := congrArg String.toList he
      simp at this
    have hp : p = ⟨a ++ "/"⟩ := by rw [← ha]
    rw [hj, hp, isAbsolute_append hne]
  · rw [hj, String.append_assoc, isAbsolute_append hne]

/-- A name below a path is one more piece, after those of the path without an empty last one. -/
theorem pieces_join (h : IsName name) :
    ∃ before, (p.join name).pieces = before ++ [name] ∧
      (p.pieces = before ∨ p.pieces = before ++ [""]) := by
  rcases join_cases p name with ⟨he, hj⟩ | ⟨a, ha, hj⟩ | ⟨-, hj⟩
  · refine ⟨[], ?_, .inr ?_⟩
    · rw [hj, pieces_name h, List.nil_append]
    · rw [pieces, he]
      rfl
  · have hp : p = ⟨a ++ "/" ++ ""⟩ := by rw [String.append_empty, ← ha]
    refine ⟨(⟨a⟩ : Path).pieces, ?_, .inr ?_⟩
    · rw [hj, pieces_append, pieces_name h]
    · rw [hp, pieces_append]
      rfl
  · refine ⟨p.pieces, ?_, .inl rfl⟩
    rw [hj, pieces_append, pieces_name h]

end Join

/-! ## Parents -/

/-- What is dropped as idle ends with a slash. -/
theorem dropIdle_spec (cs : List Char) :
    dropIdle cs = cs ∨ ∃ idle, cs = idle ++ '/' :: dropIdle cs := by
  fun_induction dropIdle cs with
  | case1 cs ih =>
    rcases ih with he | ⟨idle, he⟩
    · exact .inr ⟨[], by rw [he, List.nil_append]⟩
    · exact .inr ⟨'/' :: idle, by rw [List.cons_append, ← he]⟩
  | case2 cs ih =>
    rcases ih with he | ⟨idle, he⟩
    · exact .inr ⟨['.'], by rw [he, List.singleton_append]⟩
    · exact .inr ⟨'.' :: '/' :: idle, by rw [List.cons_append, List.cons_append, ← he]⟩
  | case3 cs => exact .inl rfl

theorem dropWhile_slash (cs : List Char) :
    cs.dropWhile (· ≠ '/') = [] ∨ ∃ rest, cs.dropWhile (· ≠ '/') = '/' :: rest := by
  induction cs with
  | nil => exact .inl rfl
  | cons c cs ih =>
    by_cases hc : c = '/'
    · subst hc
      exact .inr ⟨cs, rfl⟩
    · rw [List.dropWhile_cons, if_pos (decide_eq_true hc)]
      exact ih

/-- A path's parent is the root, the empty path, or its text before a slash. -/
theorem parent?_eq {p q : Path} (h : p.parent? = some q) :
    (q.text = "/" ∧ p.isAbsolute = true) ∨ (q.text = "" ∧ p.isAbsolute = false) ∨
      (q.text ≠ "" ∧ ∃ r, p.text = q.text ++ "/" ++ r) := by
  unfold parent? at h
  split at h
  · cases h
  simp only at h
  split at h
  · rename_i hr
    rw [Option.some.injEq] at h
    rw [← h]
    exact .inl ⟨rfl, hr.2⟩
  rename_i hr
  rw [Option.some.injEq] at h
  by_cases hrest : dropIdle (p.trimmed.dropWhile (· ≠ '/')) = []
  · rw [hrest] at h
    rw [← h]
    refine .inr (.inl ⟨rfl, ?_⟩)
    rw [Bool.eq_false_iff]
    exact fun ha => hr ⟨hrest, ha⟩
  refine .inr (.inr ?_)
  obtain ⟨idle, hidle⟩ : ∃ idle, p.text.toList.reverse = idle ++ p.trimmed := by
    rcases dropIdle_spec p.text.toList.reverse with he | ⟨idle, he⟩
    · exact ⟨[], he.symm⟩
    · exact ⟨idle ++ ['/'], by rw [List.append_assoc, List.singleton_append]; exact he⟩
  obtain ⟨name, hname⟩ : ∃ name, p.trimmed = name ++ '/' :: dropIdle (p.trimmed.dropWhile (· ≠ '/')) := by
    have hsplit : p.trimmed.takeWhile (· ≠ '/') ++ p.trimmed.dropWhile (· ≠ '/') = p.trimmed :=
      List.takeWhile_append_dropWhile
    rcases dropWhile_slash p.trimmed with he | ⟨rest, he⟩
    · rw [he] at hrest
      exact absurd rfl hrest
    · rw [he] at hsplit ⊢
      rw [dropIdle]
      rcases dropIdle_spec rest with hd | ⟨idle', hd⟩
      · exact ⟨_, by rw [hd, hsplit]⟩
      · refine ⟨p.trimmed.takeWhile (· ≠ '/') ++ '/' :: idle', ?_⟩
        rw [List.append_assoc, List.cons_append, ← hd, hsplit]
  generalize hR : dropIdle (p.trimmed.dropWhile (· ≠ '/')) = rest at h hrest hname
  refine ⟨?_, String.ofList (idle ++ name).reverse, ?_⟩
  · rw [← h]
    intro he
    have := congrArg String.toList he
    rw [String.toList_ofList] at this
    exact hrest (List.reverse_eq_nil_iff.1 this)
  · rw [← String.toList_inj, ← List.reverse_inj, hidle, hname, ← h]
    simp

/-! ## File names -/

/-- What ends in a name without a point at its end is not idle. -/
theorem trimmed_of_last {p : Path} {a : List Char} {c : Char} (h : p.text.toList = a ++ [c]) (hslash : c ≠ '/')
    (hpoint : c ≠ '.') : p.trimmed = c :: a.reverse := by
  rw [trimmed, h, List.reverse_append, List.reverse_singleton, List.singleton_append]
  unfold dropIdle
  split
  · rename_i he
    exact absurd (List.cons.inj he).1 hslash
  · rename_i he
    exact absurd (List.cons.inj he).1 hpoint
  · rfl

theorem takeWhile_slash {a rest : List Char} (h : '/' ∉ a) (hr : rest = [] ∨ ∃ b, rest = '/' :: b) :
    (a ++ rest).takeWhile (· ≠ '/') = a := by
  have ha : ∀ c ∈ a, decide (c ≠ '/') = true := by
    intro c hc
    refine decide_eq_true ?_
    rintro rfl
    exact h hc
  rw [List.takeWhile_append_of_pos ha]
  rcases hr with rfl | ⟨b, rfl⟩
  · rw [List.takeWhile_nil, List.append_nil]
  · rw [List.takeWhile_cons, if_neg (by decide), List.append_nil]

/-- A name below a path is its file name. -/
theorem fileName?_join {p : Path} {name : String} {a : List Char} {c : Char} (h : IsName name)
    (hc : name.toList = a ++ [c]) (hpoint : c ≠ '.') : (p.join name).fileName? = some name := by
  have hslash : c ≠ '/' := by
    rintro rfl
    exact h.1 (by rw [hc]; exact List.mem_append_right _ List.mem_cons_self)
  have hmem : '/' ∉ c :: a.reverse := by
    have hrev : c :: a.reverse = name.toList.reverse := by
      rw [hc, List.reverse_append, List.reverse_singleton, List.singleton_append]
    rw [hrev, List.mem_reverse]
    exact h.1
  have hlast : (p.join name).last = name := by
    obtain ⟨b, hb, hsplit⟩ : ∃ b, (p.join name).text.toList = b ++ (a ++ [c]) ∧
        (b.reverse = [] ∨ ∃ b', b.reverse = '/' :: b') := by
      rcases join_cases p name with ⟨-, hj⟩ | ⟨b, -, hj⟩ | ⟨-, hj⟩
      · exact ⟨[], by rw [hj, hc, List.nil_append], .inl rfl⟩
      · exact ⟨b.toList ++ ['/'], by simp [hj, hc], .inr ⟨b.toList.reverse, by simp⟩⟩
      · exact ⟨p.text.toList ++ ['/'], by simp [hj, hc], .inr ⟨p.text.toList.reverse, by simp⟩⟩
    rw [← List.append_assoc] at hb
    rw [last, trimmed_of_last hb hslash hpoint, List.reverse_append, ← List.cons_append, takeWhile_slash hmem hsplit,
      List.reverse_cons, List.reverse_reverse, ← hc, String.ofList_toList]
  rw [fileName?, hlast, if_neg (by rw [not_or, not_or]; exact h.2)]

end PhaseCert.Path
