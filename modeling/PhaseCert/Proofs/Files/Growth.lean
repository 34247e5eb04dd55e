/-
  PhaseCert.Proofs.Files.Growth — what writing a file does to a file system.

  Nothing that is there goes away (`Keeps`), so a path that leads somewhere still leads there.
  Making the directories above a file only adds directories where there was nothing, each on
  the way of the path (`makeDirectories_grown`). Writing a file along with them changes one file
  besides, the one that the path leads to afterwards (`writeWithin_within`), and if it does not
  fail, that file holds what was written (`writeWithin_read`).
-/
import PhaseCert.Files.FileSystem
import PhaseCert.Proofs.Files.Path
import PhaseCert.Proofs.Outcome

namespace PhaseCert.FileSystem

/-- The content of the file at a place. -/
def content? (fs : FileSystem) (l : Location) : Option Bytes :=
  match fs.node l with
  | some (.file content) => some content
  | _ => none

/-- A name that a step goes down by. -/
def Proper (name : String) : Prop :=
  name ≠ "" ∧ name ≠ "." ∧ name ≠ ".." ∧ name.utf8ByteSize ≤ maxName

instance (name : String) : Decidable (Proper name) := inferInstanceAs (Decidable (_ ∧ _ ∧ _ ∧ _))

variable {fs fs' : FileSystem} {here l : Location} {name : String} {p : Path}

/-! ## Steps and walks -/

theorem isDirectoryAt_iff : fs.isDirectoryAt l = true ↔ fs.node l = some .directory := by
  rw [isDirectoryAt, decide_eq_true_iff]

/-- Where a step leads, if it leads anywhere. -/
theorem step_eq_ok (h : fs.step here name = .ok l) :
    fs.node here = some .directory ∧
      ((name = "" ∨ name = ".") ∧ l = here ∨ name = ".." ∧ l = here.dropLast ∨
        Proper name ∧ l = here ++ [name] ∧ (fs.node l).isSome = true) := by
  unfold step at h
  by_cases hd : ¬fs.isDirectoryAt here = true
  · rw [if_pos hd] at h
    cases h
  rw [if_neg hd] at h
  rw [Decidable.not_not, isDirectoryAt_iff] at hd
  refine ⟨hd, ?_⟩
  by_cases hstay : name = "" ∨ name = "."
  · rw [if_pos hstay, Except.ok.injEq] at h
    exact .inl ⟨hstay, h.symm⟩
  rw [if_neg hstay] at h
  rw [not_or] at hstay
  by_cases hup : name = ".."
  · rw [if_pos hup, Except.ok.injEq] at h
    exact .inr (.inl ⟨hup, h.symm⟩)
  rw [if_neg hup] at h
  by_cases hlong : maxName < name.utf8ByteSize
  · rw [if_pos hlong] at h
    cases h
  rw [if_neg hlong] at h
  by_cases ht : (fs.node (here ++ [name])).isSome = true
  · rw [if_pos ht, Except.ok.injEq] at h
    subst h
    exact .inr (.inr ⟨⟨hstay.1, hstay.2, hup, Nat.le_of_not_lt hlong⟩, rfl, ht⟩)
  · rw [if_neg ht] at h
    cases h

/-- A name leads down. -/
theorem step_name (hn : Path.IsName name) (h : fs.step here name = .ok l) : l = here ++ [name] := by
  obtain ⟨-, ⟨he, -⟩ | ⟨he, -⟩ | ⟨-, hl, -⟩⟩ := step_eq_ok h
  · rcases he with he | he
    · exact absurd he hn.2.1
    · exact absurd he hn.2.2.1
  · exact absurd he hn.2.2.2
  · exact hl

theorem step_stay (hd : fs.node here = some .directory) (hn : name = "" ∨ name = ".") : fs.step here name = .ok here := by
  rw [step, if_neg (Decidable.not_not.2 (isDirectoryAt_iff.2 hd)), if_pos hn]

theorem step_up (hd : fs.node here = some .directory) : fs.step here ".." = .ok here.dropLast := by
  rw [step, if_neg (Decidable.not_not.2 (isDirectoryAt_iff.2 hd)), if_neg (by decide), if_pos rfl]

theorem step_down (hd : fs.node here = some .directory) (hp : Proper name)
    (ht : (fs.node (here ++ [name])).isSome = true) : fs.step here name = .ok (here ++ [name]) := by
  obtain ⟨hempty, hpoint, hpoints, hlong⟩ := hp
  rw [step, if_neg (Decidable.not_not.2 (isDirectoryAt_iff.2 hd)), if_neg (not_or.2 ⟨hempty, hpoint⟩), if_neg hpoints,
    if_neg (Nat.not_lt.2 hlong), if_pos ht]

theorem walk_append (start : Location) (a b : List String) :
    fs.walk start (a ++ b) = fs.walk start a >>= fun here => fs.walk here b := List.foldlM_append

theorem walk_cons (start : Location) (name : String) (names : List String) :
    fs.walk start (name :: names) = fs.step start name >>= fun here => fs.walk here names := rfl

theorem walk_single (start : Location) (name : String) : fs.walk start [name] = fs.step start name := by
  rw [walk_cons]
  cases fs.step start name <;> rfl

/-- Empty names lead nowhere else. -/
theorem walk_empty {names : List String} (hn : ∀ name ∈ names, name = "") {start : Location}
    (h : fs.walk start names = .ok l) : l = start := by
  induction names with
  | nil =>
    simp only [walk, List.foldlM_nil, Outcome.pure_eq_ok] at h
    exact h.symm
  | cons name names ih =>
    rw [List.forall_mem_cons] at hn
    rw [walk_cons, Outcome.bind_eq_ok] at h
    obtain ⟨next, hs, h⟩ := h
    rw [hn.1] at hs
    obtain ⟨-, ⟨-, rfl⟩ | ⟨he, -⟩ | ⟨hp, -⟩⟩ := step_eq_ok hs
    · exact ih hn.2 h
    · exact absurd he (by decide)
    · exact absurd rfl hp.1

@[simp] theorem node_set (fs : FileSystem) (l : Location) (n : FileNode) : (fs.set l n).node l = some n := if_pos rfl

theorem node_set_of_ne {m : Location} (h : m ≠ l) {n : FileNode} : (fs.set l n).node m = fs.node m := if_neg h

/-! ## What stays -/

/-- Directories stay directories, and nothing goes away. -/
structure Keeps (fs fs' : FileSystem) : Prop where
  working : fs'.working = fs.working
  directory : ∀ l, fs.node l = some .directory → fs'.node l = some .directory
  present : ∀ l, (fs.node l).isSome = true → (fs'.node l).isSome = true

namespace Keeps

theorem refl (fs : FileSystem) : Keeps fs fs := ⟨rfl, fun _ h => h, fun _ h => h⟩

theorem trans {fs'' : FileSystem} (h : Keeps fs fs') (h' : Keeps fs' fs'') : Keeps fs fs'' :=
  ⟨h'.working.trans h.working, fun l hl => h'.directory l (h.directory l hl), fun l hl => h'.present l (h.present l hl)⟩

theorem set {n : FileNode} (h : fs.node l ≠ some .directory) : Keeps fs (fs.set l n) where
  working := rfl
  directory m hm := by
    have hne : m ≠ l := by
      rintro rfl
      exact h hm
    rw [node_set_of_ne hne, hm]
  present m hm := by
    by_cases he : m = l
    · rw [he, node_set]
      rfl
    · rw [node_set_of_ne he, hm]

variable (h : Keeps fs fs')

include h

theorem step (hs : fs.step here name = .ok l) : fs'.step here name = .ok l := by
  obtain ⟨hd, ⟨hn, rfl⟩ | ⟨rfl, rfl⟩ | ⟨hp, rfl, ht⟩⟩ := step_eq_ok hs
  · exact step_stay (h.directory _ hd) hn
  · exact step_up (h.directory _ hd)
  · exact step_down (h.directory _ hd) hp (h.present _ ht)

theorem walk {start : Location} {names : List String} (hw : fs.walk start names = .ok l) :
    fs'.walk start names = .ok l := by
  induction names generalizing start with
  | nil => exact hw
  | cons name names ih =>
    rw [walk_cons, Outcome.bind_eq_ok] at hw ⊢
    obtain ⟨next, hs, hw⟩ := hw
    exact ⟨next, h.step hs, ih hw⟩

theorem start (p : Path) : fs'.start p = fs.start p := by
  rw [FileSystem.start, FileSystem.start, h.working]

/-- What a path leads to, it still leads to. -/
theorem locate (hl : fs.locate p = .ok l) : fs'.locate p = .ok l := by
  obtain ⟨u, hc, hw⟩ := Outcome.bind_eq_ok.1 hl
  refine Outcome.bind_eq_ok.2 ⟨u, hc, ?_⟩
  rw [h.start]
  exact h.walk hw

end Keeps

/-- A place on the way of a path: where one of its beginnings leads. -/
def OnWay (fs : FileSystem) (p : Path) (l : Location) : Prop :=
  ∃ names, names <+: p.pieces ∧ fs.walk (fs.start p) names = .ok l

theorem Keeps.onWay (h : Keeps fs fs') (hl : fs.OnWay p l) : fs'.OnWay p l := by
  obtain ⟨names, hn, hw⟩ := hl
  refine ⟨names, hn, ?_⟩
  rw [h.start]
  exact h.walk hw

/-- The way of a path's parent is the beginning of its own. -/
theorem onWay_of_parent {q : Path} (hp : p.parent? = some q) (hl : fs.OnWay q l) : fs.OnWay p l := by
  obtain ⟨names, hn, hw⟩ := hl
  have hempty : (∀ name ∈ names, name = "") → fs.start q = fs.start p → fs.OnWay p l := by
    intro he hs
    refine ⟨[], List.nil_prefix, ?_⟩
    rw [walk_empty he hw, hs]
    rfl
  rcases Path.parent?_eq hp with ⟨hq, ha⟩ | ⟨hq, ha⟩ | ⟨hq, r, hr⟩
  · have hpieces : q.pieces = ["", ""] := by
      rw [Path.pieces, hq]
      rfl
    have habs : q.isAbsolute = true := by
      rw [Path.isAbsolute, hq]
      rfl
    refine hempty ?_ (by rw [start, start, habs, ha])
    intro name hm
    have := hn.subset hm
    rw [hpieces] at this
    simpa using this
  · have hpieces : q.pieces = [""] := by
      rw [Path.pieces, hq]
      rfl
    have habs : q.isAbsolute = false := by
      rw [Path.isAbsolute, hq]
      rfl
    refine hempty ?_ (by rw [start, start, habs, ha])
    intro name hm
    have := hn.subset hm
    rw [hpieces] at this
    simpa using this
  · have hpeq : p = ⟨q.text ++ "/" ++ r⟩ := by rw [← hr]
    have hstart : fs.start p = fs.start q := by
      rw [start, start, hpeq, String.append_assoc, Path.isAbsolute_append hq]
    refine ⟨names, ?_, by rw [hstart]; exact hw⟩
    rw [hpeq, Path.pieces_append]
    exact hn.trans (List.prefix_append _ _)

/-! ## Slots -/

theorem splitLast_eq {pieces before : List String} {last : String} {slashes : Bool}
    (h : splitLast pieces = (before, last, slashes)) (hl : last ≠ "") :
    ∃ n, pieces = before ++ last :: List.replicate n "" ∧ (slashes = false → n = 0) := by
  have hsplit : pieces.reverse.takeWhile (· = "") ++ pieces.reverse.dropWhile (· = "") = pieces.reverse :=
    List.takeWhile_append_dropWhile
  have hempty : pieces.reverse.takeWhile (· = "") = List.replicate (pieces.reverse.takeWhile (· = "")).length "" := by
    refine List.eq_replicate_of_mem fun s hs => ?_
    simpa using List.all_eq_true.1 (List.all_takeWhile (p := fun s : String => decide (s = "")) (l := pieces.reverse)) s hs
  generalize hn : (pieces.reverse.takeWhile (· = "")).length = n at hempty
  rw [hempty] at hsplit
  unfold splitLast at h
  split at h
  · rw [Prod.mk.injEq, Prod.mk.injEq] at h
    exact absurd h.2.1.symm hl
  rename_i last' before' hd
  rw [Prod.mk.injEq, Prod.mk.injEq] at h
  obtain ⟨rfl, rfl, hs⟩ := h
  rw [hd] at hsplit
  refine ⟨n, ?_, ?_⟩
  · rw [← List.reverse_inj, ← hsplit]
    simp
  · intro hf
    rw [← hs, decide_eq_false_iff_not] at hf
    cases n with
    | zero => rfl
    | succ n =>
      rw [List.getLast?_eq_head?_reverse, ← hsplit] at hf
      exact absurd rfl hf

/-- The slot that a path names: below a directory that all but its last name lead to. -/
theorem slot_eq_name {slashes : Bool} (h : fs.slot p = .ok (.name l slashes)) :
    ∃ before last parent n, check p = .ok () ∧ p.pieces = before ++ last :: List.replicate n "" ∧
      (slashes = false → n = 0) ∧ fs.walk (fs.start p) before = .ok parent ∧ fs.node parent = some .directory ∧
        Proper last ∧ l = parent ++ [last] := by
  unfold slot at h
  obtain ⟨u, hc, h⟩ := Outcome.bind_eq_ok.1 h
  obtain ⟨before, last, slashes', hs⟩ : ∃ before last slashes', splitLast p.pieces = (before, last, slashes') :=
    ⟨_, _, _, rfl⟩
  simp only [hs] at h
  obtain ⟨parent, hw, h⟩ := Outcome.bind_eq_ok.1 h
  by_cases hd : ¬fs.isDirectoryAt parent = true
  · rw [if_pos hd] at h
    cases h
  rw [if_neg hd] at h
  rw [Decidable.not_not, isDirectoryAt_iff] at hd
  by_cases hplain : last = "" ∨ last = "." ∨ last = ".."
  · rw [if_pos hplain] at h
    cases h
  rw [if_neg hplain] at h
  by_cases hlong : maxName < last.utf8ByteSize
  · rw [if_pos hlong] at h
    cases h
  rw [if_neg hlong, Except.ok.injEq, Slot.name.injEq] at h
  rw [not_or, not_or] at hplain
  obtain ⟨n, hn, hzero⟩ := splitLast_eq hs hplain.1
  obtain ⟨rfl, rfl⟩ := h
  exact ⟨before, last, parent, n, hc, hn, hzero, hw, hd,
    ⟨hplain.1, hplain.2.1, hplain.2.2, Nat.le_of_not_lt hlong⟩, rfl⟩

/-- All but the last name lead to a directory, so there is a slot below it. -/
theorem slot_name {before : List String} {last : String} {slashes : Bool} {parent : Location} (hc : check p = .ok ())
    (hp : splitLast p.pieces = (before, last, slashes)) (hw : fs.walk (fs.start p) before = .ok parent)
    (hd : fs.node parent = some .directory) (hlast : Proper last) : fs.slot p = .ok (.name (parent ++ [last]) slashes) := by
  obtain ⟨hempty, hpoint, hpoints, hlong⟩ := hlast
  rw [slot, hc, Outcome.ok_bind]
  simp only [hp, hw, Outcome.ok_bind]
  rw [if_neg (Decidable.not_not.2 (isDirectoryAt_iff.2 hd)), if_neg (by simp [hempty, hpoint, hpoints]),
    if_neg (Nat.not_lt.2 hlong)]

/-- A name that was put below a directory is where its path leads. -/
theorem walk_set {start parent : Location} {before : List String} {last : String} {n : FileNode}
    (hw : fs.walk start before = .ok parent) (hd : fs.node parent = some .directory) (hp : Proper last)
    (hne : fs.node (parent ++ [last]) ≠ some .directory) :
    (fs.set (parent ++ [last]) n).walk start (before ++ [last]) = .ok (parent ++ [last]) := by
  have hkeeps : Keeps fs (fs.set (parent ++ [last]) n) := .set hne
  rw [walk_append, hkeeps.walk hw, Outcome.ok_bind, walk_single]
  refine step_down (hkeeps.directory _ hd) hp ?_
  rw [node_set]
  rfl

/-! ## Directories -/

/-- Directories were made where there was nothing, each on the way of a path. -/
structure Grown (p : Path) (fs fs' : FileSystem) : Prop where
  working : fs'.working = fs.working
  node : ∀ l, fs'.node l = fs.node l ∨ (fs.node l = none ∧ fs'.node l = some .directory ∧ fs'.OnWay p l)

namespace Grown

theorem refl (p : Path) (fs : FileSystem) : Grown p fs fs := ⟨rfl, fun _ => .inl rfl⟩

theorem keeps (h : Grown p fs fs') : Keeps fs fs' where
  working := h.working
  directory l hl := by
    rcases h.node l with he | ⟨hn, -⟩
    · rw [he, hl]
    · rw [hn] at hl
      cases hl
  present l hl := by
    rcases h.node l with he | ⟨hn, -⟩
    · rw [he, hl]
    · rw [hn] at hl
      cases hl

theorem trans {fs'' : FileSystem} (h : Grown p fs fs') (h' : Grown p fs' fs'') : Grown p fs fs'' where
  working := h'.working.trans h.working
  node l := by
    rcases h.node l with he | ⟨hn, hd, hw⟩
    · rcases h'.node l with he' | ⟨hn', hd', hw'⟩
      · exact .inl (he'.trans he)
      · exact .inr ⟨he.symm.trans hn', hd', hw'⟩
    · exact .inr ⟨hn, h'.keeps.directory l hd, h'.keeps.onWay hw⟩

theorem ofParent {q : Path} (hp : p.parent? = some q) (h : Grown q fs fs') : Grown p fs fs' where
  working := h.working
  node l := by
    rcases h.node l with he | ⟨hn, hd, hw⟩
    · exact .inl he
    · exact .inr ⟨hn, hd, onWay_of_parent hp hw⟩

end Grown

theorem makeDirectory_grown (h : fs.makeDirectory p = .ok fs') : Grown p fs fs' := by
  obtain ⟨slot, hs, h⟩ := Outcome.bind_eq_ok.1 h
  cases slot with
  | directory => cases h
  | name l slashes =>
    simp only at h
    by_cases ht : (fs.node l).isSome = true
    · rw [if_pos ht] at h
      cases h
    rw [if_neg ht, Except.ok.injEq] at h
    rw [Bool.not_eq_true, Option.isSome_eq_false_iff, Option.isNone_iff_eq_none] at ht
    obtain ⟨before, last, parent, n, -, hpieces, -, hw, hd, hp, rfl⟩ := slot_eq_name hs
    have hwalk := walk_set (n := .directory) hw hd hp (by rw [ht]; exact nofun)
    subst h
    refine ⟨rfl, fun m => ?_⟩
    by_cases hm : m = parent ++ [last]
    · subst hm
      refine .inr ⟨ht, node_set _ _ _, before ++ [last], ?_, hwalk⟩
      exact ⟨List.replicate n "", by rw [hpieces, List.append_assoc, List.singleton_append]⟩
    · exact .inl (node_set_of_ne hm)

/-- One attempt to make a directory makes it or leaves everything as it was. -/
theorem attempt_grown (p : Path) (fs : FileSystem) :
    Grown p fs (match fs.makeDirectory p with
      | .ok fs' => (fs', none)
      | .error e => if fs.isDirectory p then (fs, none) else (fs, some e)).1 := by
  cases h : fs.makeDirectory p with
  | ok fs' => exact makeDirectory_grown h
  | error e =>
    simp only
    split
    · exact .refl p fs
    · exact .refl p fs

theorem makeMissing_grown (fuel : Nat) (p : Path) (fs : FileSystem) : Grown p fs (fs.makeMissing fuel p).1 := by
  induction fuel generalizing p with
  | zero => exact .refl p fs
  | succ fuel ih =>
    unfold makeMissing
    by_cases he : p.text = ""
    · rw [if_pos he]
      exact .refl p fs
    rw [if_neg he]
    simp only
    split
    · cases hq : p.parent? with
      | none => exact .refl p fs
      | some q =>
        have hgrown := (ih q).ofParent hq
        simp only
        split
        · rename_i mid hm
          rw [hm] at hgrown
          exact hgrown.trans (attempt_grown p mid)
        · rename_i mid e hm
          rw [hm] at hgrown
          exact hgrown
    · exact attempt_grown p fs

theorem makeDirectories_grown (p : Path) (fs : FileSystem) : Grown p fs (fs.makeDirectories p).1 :=
  makeMissing_grown _ p fs

/-! ## Files -/

/-- All is as it was but for directories made on the way of a path, and for what the path leads to. -/
structure Within (p : Path) (fs fs' : FileSystem) : Prop where
  keeps : Keeps fs fs'
  node : ∀ l, fs'.node l = fs.node l ∨
    (fs.node l = none ∧ fs'.node l = some .directory ∧ fs'.OnWay p l) ∨ fs'.locate p = .ok l

theorem Grown.within (h : Grown p fs fs') : Within p fs fs' := by
  refine ⟨h.keeps, fun l => ?_⟩
  rcases h.node l with he | hm
  · exact .inl he
  · exact .inr (.inl hm)

theorem Within.refl (p : Path) (fs : FileSystem) : Within p fs fs := (Grown.refl p fs).within

/-- Writing a file puts it where its path leads to. -/
theorem write_eq_ok {content : Bytes} (h : fs.write p content = .ok fs') :
    ∃ l, fs' = fs.set l (.file content) ∧ fs.node l ≠ some .directory ∧ fs'.locate p = .ok l := by
  obtain ⟨slot, hs, h⟩ := Outcome.bind_eq_ok.1 h
  cases slot with
  | directory => cases h
  | name l slashes =>
    simp only at h
    by_cases hb : slashes = true ∨ fs.isDirectoryAt l = true
    · rw [if_pos hb] at h
      cases h
    rw [if_neg hb, Except.ok.injEq] at h
    rw [not_or, isDirectoryAt_iff, Bool.not_eq_true] at hb
    obtain ⟨before, last, parent, n, hc, hpieces, hzero, hw, hd, hp, rfl⟩ := slot_eq_name hs
    refine ⟨parent ++ [last], h.symm, hb.2, ?_⟩
    rw [hzero hb.1, List.replicate_zero] at hpieces
    rw [locate, hc, Outcome.ok_bind, hpieces, ← h]
    exact walk_set hw hd hp hb.2

theorem write_within {content : Bytes} (h : fs.write p content = .ok fs') : Within p fs fs' := by
  obtain ⟨l, rfl, hne, hl⟩ := write_eq_ok h
  refine ⟨.set hne, fun m => ?_⟩
  by_cases hm : m = l
  · subst hm
    exact .inr (.inr hl)
  · exact .inl (node_set_of_ne hm)

theorem write_read {content : Bytes} (h : fs.write p content = .ok fs') : fs'.read p = .ok content := by
  obtain ⟨l, rfl, -, hl⟩ := write_eq_ok h
  rw [read, hl, Outcome.ok_bind, node_set]

/-- A slot that no directory takes can be written to. -/
theorem write_slot (hs : fs.slot p = .ok (.name l false)) (hfree : fs.node l ≠ some .directory) (content : Bytes) :
    fs.write p content = .ok (fs.set l (.file content)) := by
  have hd : fs.isDirectoryAt l = false := by
    rw [Bool.eq_false_iff, Ne, isDirectoryAt_iff]
    exact hfree
  rw [write, hs, Outcome.ok_bind]
  simp only [hd, Bool.false_eq_true, or_self, if_false]

/-- Writing a file makes directories first, and then the file. -/
theorem writeWithin_cases (fs : FileSystem) (p : Path) (content : Bytes) :
    (∃ mid fs', Grown p fs mid ∧ mid.write p content = .ok fs' ∧ fs.writeWithin p content = (fs', none)) ∨
      ∃ mid f, Grown p fs mid ∧ fs.writeWithin p content = (mid, some f) := by
  have hfile : ∀ mid, Grown p fs mid → ∀ r, r = (match mid.write p content with
      | .ok fs' => (fs', none)
      | .error e => (mid, some (WriteFailure.mk p false e))) →
      (∃ mid fs', Grown p fs mid ∧ mid.write p content = .ok fs' ∧ r = (fs', none)) ∨
        ∃ mid f, Grown p fs mid ∧ r = (mid, some f) := by
    intro mid hg r hr
    cases hw : mid.write p content with
    | ok fs' =>
      rw [hw] at hr
      exact .inl ⟨mid, fs', hg, hw, hr⟩
    | error e =>
      rw [hw] at hr
      exact .inr ⟨mid, _, hg, hr⟩
  unfold writeWithin
  cases hq : p.properParent? with
  | none => exact hfile fs (.refl p fs) _ rfl
  | some q =>
    have hparent : p.parent? = some q := (Option.filter_eq_some_iff.1 hq).1
    have hgrown := (makeDirectories_grown q fs).ofParent hparent
    rcases hm : fs.makeDirectories q with ⟨mid, _ | e⟩
    · rw [hm] at hgrown
      simp only [hm]
      exact hfile mid hgrown _ rfl
    · rw [hm] at hgrown
      simp only [hm]
      exact .inr ⟨mid, _, hgrown, rfl⟩

theorem Grown.trans_within {mid : FileSystem} (h : Grown p fs mid) (h' : Within p mid fs') : Within p fs fs' := by
  refine ⟨h.keeps.trans h'.keeps, fun l => ?_⟩
  rcases h'.node l with he' | ⟨hn', hd', hw'⟩ | hl
  · rcases h.node l with he | ⟨hn, hd, hw⟩
    · exact .inl (he'.trans he)
    · exact .inr (.inl ⟨hn, he'.trans hd, h'.keeps.onWay hw⟩)
  · rcases h.node l with he | ⟨hn, hd, hw⟩
    · exact .inr (.inl ⟨he.symm.trans hn', hd', hw'⟩)
    · exact .inr (.inl ⟨hn, hd', hw'⟩)
  · exact .inr (.inr hl)

/-- Whether a file can be written or not, all else is left as it was but for the directories
    above it. -/
theorem writeWithin_within (fs : FileSystem) (p : Path) (content : Bytes) :
    Within p fs (fs.writeWithin p content).1 := by
  rcases writeWithin_cases fs p content with ⟨mid, fs', hg, hw, hr⟩ | ⟨mid, f, hg, hr⟩
  · rw [hr]
    exact hg.trans_within (write_within hw)
  · rw [hr]
    exact hg.within

/-- What was written without failure can be read. -/
theorem writeWithin_read {content : Bytes} (h : fs.writeWithin p content = (fs', none)) : fs'.read p = .ok content := by
  rcases writeWithin_cases fs p content with ⟨mid, fs'', -, hw, hr⟩ | ⟨mid, f, -, hr⟩
  · rw [h, Prod.mk.injEq] at hr
    rw [hr.1]
    exact write_read hw
  · rw [h, Prod.mk.injEq] at hr
    cases hr.2

/-! ## Contents -/

theorem Within.content? (h : Within p fs fs') (hl : fs'.locate p ≠ .ok l) : fs'.content? l = fs.content? l := by
  rcases h.node l with he | ⟨hn, hd, -⟩ | hp
  · rw [FileSystem.content?, FileSystem.content?, he]
  · rw [FileSystem.content?, FileSystem.content?, hn, hd]
  · exact absurd hp hl

theorem read_eq_ok {content : Bytes} :
    fs.read p = .ok content ↔ ∃ l, fs.locate p = .ok l ∧ fs.content? l = some content := by
  constructor
  · intro h
    obtain ⟨l, hl, h⟩ := Outcome.bind_eq_ok.1 h
    refine ⟨l, hl, ?_⟩
    split at h
    · rename_i hn
      rw [Except.ok.injEq] at h
      rw [content?, hn, h]
    · cases h
    · cases h
  · rintro ⟨l, hl, h⟩
    unfold content? at h
    split at h
    · rename_i hn
      rw [Option.some.injEq] at h
      rw [read, hl, Outcome.ok_bind, hn, h]
    · cases h

theorem isFile_of_read {content : Bytes} (h : fs.read p = .ok content) : fs.isFile p = true := by
  obtain ⟨l, hl, h⟩ := Outcome.bind_eq_ok.1 h
  rw [isFile, find?, hl]
  split at h
  · rename_i hn
    simp only [hn]
  · cases h
  · cases h

/-! ## Names below a path -/

/-- A path that ends in a name leads to a place of that name. -/
theorem getLast?_of_locate {before : List String} (hp : p.pieces = before ++ [name]) (hn : Path.IsName name)
    (h : fs.locate p = .ok l) : l.getLast? = some name := by
  obtain ⟨-, -, h⟩ := Outcome.bind_eq_ok.1 h
  rw [hp, walk_append] at h
  obtain ⟨parent, -, h⟩ := Outcome.bind_eq_ok.1 h
  rw [walk_single] at h
  rw [step_name hn h]
  exact List.getLast?_concat

/-- The path leads to this place. -/
def Leads (fs : FileSystem) (p : Path) (l : Location) : Prop := fs.walk (fs.start p) p.pieces = .ok l

/-- A name below a path is a place below the one that the path leads to. -/
theorem locate_join {d : Location} (hn : Path.IsName name) (hd : fs.Leads p d) (h : fs.locate (p.join name) = .ok l) :
    l = d ++ [name] := by
  obtain ⟨u, -, h⟩ := Outcome.bind_eq_ok.1 h
  obtain ⟨before, hb, hp⟩ := Path.pieces_join (p := p) hn
  rw [start, Path.isAbsolute_join hn, ← start, hb, walk_append, Outcome.bind_eq_ok] at h
  obtain ⟨here, hw, hs⟩ := h
  rw [walk_single] at hs
  have hhere : d = here := by
    unfold Leads at hd
    rcases hp with hp | hp
    · rw [hp, hw, Except.ok.injEq] at hd
      exact hd.symm
    · rw [hp, walk_append, hw, Outcome.ok_bind] at hd
      exact walk_empty (by simp) hd
  rw [hhere, step_name hn hs]

theorem content?_join {d : Location} {content : Bytes} (hn : Path.IsName name) (hd : fs.Leads p d)
    (h : fs.read (p.join name) = .ok content) : fs.content? (d ++ [name]) = some content := by
  obtain ⟨l, hl, hc⟩ := read_eq_ok.1 h
  rw [locate_join hn hd hl] at hc
  exact hc

end PhaseCert.FileSystem
