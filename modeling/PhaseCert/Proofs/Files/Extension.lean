/-
  PhaseCert.Proofs.Files.Extension — the format that a path's extension stands for.

  A path's text ends in what stands for nothing (`Idle`), and before that in its last component,
  back to a slash or to the start. The text falls into these parts in one way only
  (`lastComponent_iff`). What follows the last point of the component is its extension
  (`extension?_eq_some_iff`), and of all texts only the three words themselves, in any letter
  case, stand for a format (`ofPath_spec`).
-/
import PhaseCert.Loading
import PhaseCert.Proofs.Files.Path
import PhaseCert.Proofs.Text.LowerCase

namespace PhaseCert

namespace Path

/-! ## The end of a path -/

/-- Slashes, and points after slashes. -/
inductive Idle : List Char → Prop
  | nil : Idle []
  | slash {cs : List Char} : Idle cs → Idle ('/' :: cs)
  | point {cs : List Char} : Idle cs → Idle ('/' :: '.' :: cs)

theorem Idle.append {a b : List Char} (ha : Idle a) (hb : Idle b) : Idle (a ++ b) := by
  induction ha with
  | nil => exact hb
  | slash _ ih => exact .slash ih
  | point _ ih => exact .point ih

/-- What is idle is dropped, whatever it follows. -/
theorem Idle.dropIdle {idle : List Char} (h : Idle idle) (cs : List Char) :
    dropIdle (idle.reverse ++ cs) = Path.dropIdle cs := by
  induction h generalizing cs with
  | nil => rfl
  | slash _ ih =>
    rw [List.reverse_cons, List.append_assoc, ih]
    rfl
  | point _ ih =>
    rw [List.reverse_cons, List.reverse_cons, List.append_assoc, List.append_assoc, ih]
    rfl

/-- Only what is idle is dropped. -/
theorem exists_idle (cs : List Char) : ∃ idle, Idle idle ∧ cs.reverse = (dropIdle cs).reverse ++ idle := by
  fun_induction dropIdle cs with
  | case1 cs ih =>
    obtain ⟨idle, hidle, he⟩ := ih
    exact ⟨idle ++ ['/'], hidle.append (.slash .nil), by rw [List.reverse_cons, he, List.append_assoc]⟩
  | case2 cs ih =>
    obtain ⟨idle, hidle, he⟩ := ih
    refine ⟨idle ++ ['/', '.'], hidle.append (.point .nil), ?_⟩
    rw [List.reverse_cons, List.reverse_cons, he, List.append_assoc, List.append_assoc]
    rfl
  | case3 cs => exact ⟨[], .nil, by rw [List.append_nil]⟩

/-- A reversed text with nothing idle at its end. -/
def Firm (cs : List Char) : Prop := ∀ rest, cs ≠ '/' :: rest ∧ cs ≠ '.' :: '/' :: rest

theorem dropIdle_firm (cs : List Char) : Firm (dropIdle cs) := by
  fun_induction dropIdle cs with
  | case1 cs ih => exact ih
  | case2 cs ih => exact ih
  | case3 cs hslash hpoint => exact fun rest => ⟨hslash rest, hpoint rest⟩

theorem Firm.dropIdle {cs : List Char} (h : Firm cs) : dropIdle cs = cs := by
  unfold Path.dropIdle
  split
  · exact absurd rfl (h _).1
  · exact absurd rfl (h _).2
  · rfl

/-! ## The last component -/

/-- The name stands before what is idle at the end of the path, and after a slash or at the start.
    It is empty or a single point only if nothing stands before it. -/
def LastComponent (p : Path) (name : String) : Prop :=
  ∃ before idle, p.text.toList = before ++ (name.toList ++ idle) ∧ Idle idle ∧ '/' ∉ name.toList ∧
    (before = [] ∨ before.getLast? = some '/' ∧ name ≠ "" ∧ name ≠ ".")

theorem firm_of_name {name before : List Char} (hslash : '/' ∉ name) (h : before = [] ∨ name ≠ [] ∧ name ≠ ['.']) :
    Firm (name ++ before) := by
  intro rest
  match name with
  | [] =>
    rcases h with rfl | ⟨hnil, -⟩
    · exact ⟨nofun, nofun⟩
    · exact absurd rfl hnil
  | [c] =>
    constructor
    · intro he
      exact hslash (List.mem_singleton.2 (List.cons.inj he).1.symm)
    · intro he
      obtain ⟨rfl, hb⟩ := List.cons.inj he
      rcases h with rfl | ⟨-, hpoint⟩
      · cases hb
      · exact hpoint rfl
  | c :: d :: name =>
    rw [List.mem_cons, List.mem_cons, not_or, not_or] at hslash
    constructor
    · intro he
      exact hslash.1 (List.cons.inj he).1.symm
    · intro he
      exact hslash.2.1 (List.cons.inj (List.cons.inj he).2).1.symm

theorem LastComponent.last_eq {p : Path} {name : String} (h : p.LastComponent name) : p.last = name := by
  obtain ⟨before, idle, htext, hidle, hslash, hbefore⟩ := h
  have hslash : '/' ∉ name.toList.reverse := fun h => hslash (List.mem_reverse.1 h)
  have hfirm : Firm (name.toList.reverse ++ before.reverse) := by
    refine firm_of_name hslash ?_
    rcases hbefore with rfl | ⟨-, hnil, hpoint⟩
    · exact .inl rfl
    · refine .inr ⟨fun h => hnil (String.toList_inj.1 ?_), fun h => hpoint (String.toList_inj.1 ?_)⟩
      · exact List.reverse_eq_iff.1 h
      · exact List.reverse_eq_iff.1 h
  have htrimmed : p.trimmed = name.toList.reverse ++ before.reverse := by
    rw [trimmed, htext, List.reverse_append, List.reverse_append, List.append_assoc, hidle.dropIdle, hfirm.dropIdle]
  have hstart : before.reverse = [] ∨ ∃ b, before.reverse = '/' :: b := by
    rcases hbefore with rfl | ⟨hlast, -⟩
    · exact .inl rfl
    · obtain ⟨b, rfl⟩ := List.getLast?_eq_some_iff.1 hlast
      exact .inr ⟨b.reverse, List.reverse_concat ..⟩
  rw [last, htrimmed, takeWhile_slash hslash hstart, List.reverse_reverse, String.ofList_toList]

theorem not_mem_takeWhile (mark : Char) (cs : List Char) : mark ∉ cs.takeWhile (· ≠ mark) := by
  intro h
  simpa using List.all_eq_true.1 List.all_takeWhile _ h

theorem lastComponent_last (p : Path) : p.LastComponent p.last := by
  obtain ⟨idle, hidle, htext⟩ := exists_idle p.text.toList.reverse
  rw [List.reverse_reverse] at htext
  have hfirm : Firm p.trimmed := dropIdle_firm _
  have hsplit : p.trimmed.takeWhile (· ≠ '/') ++ p.trimmed.dropWhile (· ≠ '/') = p.trimmed :=
    List.takeWhile_append_dropWhile
  have hname : p.last.toList = (p.trimmed.takeWhile (· ≠ '/')).reverse := String.toList_ofList
  refine ⟨(p.trimmed.dropWhile (· ≠ '/')).reverse, idle, ?_, hidle, ?_, ?_⟩
  · rw [hname, ← List.append_assoc, ← List.reverse_append, hsplit]
    exact htext
  · rw [hname, List.mem_reverse]
    exact not_mem_takeWhile '/' _
  · rcases dropWhile_slash p.trimmed with he | ⟨rest, he⟩
    · exact .inl (by rw [he]; rfl)
    · -- with nothing or a point before the slash, more would have been dropped
      rw [← hsplit, he] at hfirm
      refine .inr ⟨by rw [he]; simp, fun hnil => (hfirm rest).1 ?_, fun hpoint => (hfirm rest).2 ?_⟩
      · rw [hnil] at hname
        rw [List.reverse_eq_nil_iff.1 hname.symm]
        rfl
      · rw [hpoint] at hname
        rw [List.reverse_eq_iff.1 hname.symm]
        rfl

/-- Every path has one last component. -/
theorem lastComponent_iff {p : Path} {name : String} : p.LastComponent name ↔ p.last = name := by
  constructor
  · exact LastComponent.last_eq
  · rintro rfl
    exact lastComponent_last p

/-! ## The extension -/

/-- The name has a point after its start, and this follows the last one. -/
def HasExtension (name extension : String) : Prop :=
  ∃ stem, stem ≠ "" ∧ name = stem ++ "." ++ extension ∧ '.' ∉ extension.toList

theorem not_hasExtension_empty {extension : String} : ¬HasExtension "" extension := by
  rintro ⟨stem, hstem, hname, -⟩
  rw [String.append_assoc, eq_comm, String.append_eq_empty_iff] at hname
  exact hstem hname.1

/-- A point at the start of a name does not count. -/
theorem not_hasExtension_point {extension : String} : ¬HasExtension "." extension := by
  rintro ⟨stem, hstem, hname, -⟩
  have hlength := congrArg String.length hname
  have hpositive : stem.length ≠ 0 := by rwa [Ne, String.length_eq_zero_iff]
  rw [String.length_append, String.length_append] at hlength
  have hone : ".".length = 1 := rfl
  omega

/-- Read from its end, a name comes to the extension, and then to a point with more before it. -/
theorem HasExtension.split {name extension : String} (h : HasExtension name extension) :
    name.toList.reverse.takeWhile (· ≠ '.') = extension.toList.reverse ∧
      ∃ c stem, name.toList.reverse.dropWhile (· ≠ '.') = '.' :: c :: stem := by
  obtain ⟨stem, hstem, rfl, hpoint⟩ := h
  have hplain : ∀ c ∈ extension.toList.reverse, decide (c ≠ '.') = true := by
    intro c hc
    refine decide_eq_true ?_
    rintro rfl
    exact hpoint (List.mem_reverse.1 hc)
  have hname : (stem ++ "." ++ extension).toList.reverse = extension.toList.reverse ++ '.' :: stem.toList.reverse := by
    simp
  have hnil : stem.toList.reverse ≠ [] := by
    intro h
    exact hstem (String.toList_eq_nil_iff.1 (List.reverse_eq_nil_iff.1 h))
  obtain ⟨c, rest, hrest⟩ := List.exists_cons_of_ne_nil hnil
  rw [hname, List.dropWhile_append_of_pos hplain, List.takeWhile_append_of_pos hplain, hrest]
  simp

theorem hasExtension_of_split {name : String} {c : Char} {stem : List Char}
    (h : name.toList.reverse.dropWhile (· ≠ '.') = '.' :: c :: stem) :
    HasExtension name (String.ofList (name.toList.reverse.takeWhile (· ≠ '.')).reverse) := by
  have hsplit : name.toList.reverse.takeWhile (· ≠ '.') ++ name.toList.reverse.dropWhile (· ≠ '.') =
      name.toList.reverse := List.takeWhile_append_dropWhile
  have hpoint := not_mem_takeWhile '.' name.toList.reverse
  rw [h] at hsplit
  generalize name.toList.reverse.takeWhile (· ≠ '.') = extension at hsplit hpoint ⊢
  refine ⟨String.ofList (c :: stem).reverse, ?_, ?_, ?_⟩
  · rw [Ne, ← String.toList_inj, String.toList_ofList]
    simp
  · rw [← String.toList_inj, ← List.reverse_inj, ← hsplit]
    simp
  · rwa [String.toList_ofList, List.mem_reverse]

theorem extension?_of_fileName? {p : Path} {name extension : String} (hname : p.fileName? = some name) :
    p.extension? = some extension ↔ HasExtension name extension := by
  rw [extension?, hname]
  simp only
  constructor
  · intro h
    split at h
    · rename_i he
      rw [← Option.some.inj h]
      exact hasExtension_of_split he
    · cases h
  · intro h
    obtain ⟨htake, c, stem, hdrop⟩ := h.split
    simp only [hdrop, htake, List.reverse_reverse, String.ofList_toList]

/-- The extension is that of the last component, unless that is two points. -/
theorem extension?_eq_some_iff {p : Path} {extension : String} :
    p.extension? = some extension ↔ p.last ≠ ".." ∧ HasExtension p.last extension := by
  by_cases hlast : p.last = "" ∨ p.last = "." ∨ p.last = ".."
  · have hname : p.fileName? = none := by rw [fileName?, if_pos hlast]
    rw [extension?, hname]
    constructor
    · intro h
      cases h
    · rintro ⟨hparent, h⟩
      rcases hlast with he | he | he
      · exact absurd (he ▸ h) not_hasExtension_empty
      · exact absurd (he ▸ h) not_hasExtension_point
      · exact absurd he hparent
  · have hname : p.fileName? = some p.last := by rw [fileName?, if_neg hlast]
    rw [extension?_of_fileName? hname, and_iff_right fun he => hlast (.inr (.inr he))]

/-- The extension of a name as it is written, or nothing where there is none. -/
def Written (name extension : String) : Prop :=
  name ≠ ".." ∧ HasExtension name extension ∨ extension = "" ∧ (name = ".." ∨ ∀ e, ¬HasExtension name e)

theorem getD_extension?_eq_iff {p : Path} {extension : String} :
    p.extension?.getD "" = extension ↔ Written p.last extension := by
  cases h : p.extension? with
  | none =>
    have hnone : p.last = ".." ∨ ∀ e, ¬HasExtension p.last e := by
      by_cases hparent : p.last = ".."
      · exact .inl hparent
      · refine .inr fun e he => ?_
        rw [extension?_eq_some_iff.2 ⟨hparent, he⟩] at h
        cases h
    rw [Option.getD_none]
    constructor
    · rintro rfl
      exact .inr ⟨rfl, hnone⟩
    · rintro (hsome | ⟨rfl, -⟩)
      · rw [extension?_eq_some_iff.2 hsome] at h
        cases h
      · rfl
  | some e =>
    obtain ⟨hparent, he⟩ := extension?_eq_some_iff.1 h
    rw [Option.getD_some]
    constructor
    · rintro rfl
      exact .inl ⟨hparent, he⟩
    · rintro (hsome | ⟨-, hnone⟩)
      · exact Option.some.inj (h.symm.trans (extension?_eq_some_iff.2 hsome))
      · exact (hnone.elim hparent fun hn => hn e he).elim

end Path

/-! ## Formats -/

namespace DocumentFormat

open PhaseCert.Path

/-- The words that stand for a format. -/
def extensions : DocumentFormat → List String
  | .toml => ["toml"]
  | .yaml => ["yaml", "yml"]

theorem isOwnLetter_extensions (f : DocumentFormat) :
    ∀ word ∈ f.extensions, ∀ c ∈ word.toList, isOwnLetter c = true := by
  cases f <;> decide

/-- No text but the words in another letter case lower-cases to one of them. -/
theorem lowerCase_mem_extensions {s : String} {f : DocumentFormat} :
    lowerCase s ∈ f.extensions ↔ s.toLower ∈ f.extensions := by
  constructor
  · intro h
    rwa [(lowerCase_eq_iff (isOwnLetter_extensions f _ h)).1 rfl]
  · intro h
    rwa [(lowerCase_eq_iff (isOwnLetter_extensions f _ h)).2 rfl]

theorem ofExtension?_eq_some_iff {s : String} {f : DocumentFormat} :
    ofExtension? s = some f ↔ s.toLower ∈ f.extensions := by
  rw [← lowerCase_mem_extensions, ofExtension?]
  generalize lowerCase s = word
  by_cases htoml : word = "toml"
  · subst htoml
    cases f <;> decide
  by_cases hyaml : word = "yaml" ∨ word = "yml"
  · rcases hyaml with rfl | rfl <;> cases f <;> decide
  · cases f <;> simp_all [extensions]

theorem ofPath_eq_ok_iff {p : Path} {f : DocumentFormat} :
    ofPath p = .ok f ↔ (p.extension?.getD "").toLower ∈ f.extensions := by
  rw [← ofExtension?_eq_some_iff]
  unfold ofPath
  dsimp only
  cases ofExtension? (p.extension?.getD "") <;> simp

theorem ofPath_eq_error_iff {p : Path} {e : LoadError} : ofPath p = .error e ↔
    e = .unsupported p (p.extension?.getD "") ∧ ∀ f : DocumentFormat, (p.extension?.getD "").toLower ∉ f.extensions := by
  simp only [← ofExtension?_eq_some_iff]
  unfold ofPath
  dsimp only
  cases ofExtension? (p.extension?.getD "") with
  | none => simp [eq_comm]
  | some f => simp

/-- A path's format is that of its last component, of which there is one: it is given by the
    text after the last point there, if that is one of the words in some letter case. Any other
    path is refused with that text as it is written. -/
theorem ofPath_spec (p : Path) : ∃ name, (∀ name', p.LastComponent name' ↔ name' = name) ∧
    (∀ f, ofPath p = .ok f ↔ name ≠ ".." ∧ ∃ extension, HasExtension name extension ∧ extension.toLower ∈ f.extensions) ∧
    (∀ e, ofPath p = .error e ↔ ∃ extension, Written name extension ∧
      (∀ f : DocumentFormat, extension.toLower ∉ f.extensions) ∧ e = .unsupported p extension) ∧
    ∀ s (f : DocumentFormat), lowerCase s ∈ f.extensions ↔ s.toLower ∈ f.extensions := by
  refine ⟨p.last, fun name' => lastComponent_iff.trans eq_comm, fun f => ?_, fun e => ?_,
    fun s f => lowerCase_mem_extensions⟩
  · rw [ofPath_eq_ok_iff]
    constructor
    · intro h
      rcases getD_extension?_eq_iff.1 (rfl : p.extension?.getD "" = _) with ⟨hparent, he⟩ | ⟨hempty, -⟩
      · exact ⟨hparent, _, he, h⟩
      · rw [hempty, ← lowerCase_mem_extensions] at h
        cases f <;> exact absurd h (by decide)
    · rintro ⟨hparent, extension, he, h⟩
      rwa [getD_extension?_eq_iff.2 (.inl ⟨hparent, he⟩)]
  · rw [ofPath_eq_error_iff]
    constructor
    · rintro ⟨he, h⟩
      exact ⟨_, getD_extension?_eq_iff.1 rfl, h, he⟩
    · rintro ⟨extension, hw, h, he⟩
      rw [getD_extension?_eq_iff.2 hw]
      exact ⟨he, h⟩

example : ofPath ⟨"conf/.b92.YmL/./"⟩ = .ok .yaml := by rfl

example : ofPath ⟨"conf/.toml"⟩ = .error (.unsupported ⟨"conf/.toml"⟩ "") := by rfl

end DocumentFormat

end PhaseCert
