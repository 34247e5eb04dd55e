/-
  PhaseCert.Proofs.Pipeline.Effects — what the program does to the files, and how it ends.

  A run that comes to no certificate leaves everything as it was. One whose instance has no
  text leaves the instance as it was, whatever was there before, and has nothing checked. A
  prover is only ever asked about files that both hold what this run has made, and its answer
  changes none of them. No content changes but that of the two files, and the exit code is 0
  exactly if every stage succeeds (`respond_effects`).
-/
import PhaseCert.CommandLine
import PhaseCert.Proofs.Pipeline.Course

namespace PhaseCert

namespace Pipeline

open Work

/-! ## Checking the instance -/

theorem certificateName_isName : Path.IsName certificateName := by decide

theorem instanceName_isName : Path.IsName instanceName := by decide

theorem fileName?_artifact (o : RunOptions) : o.artifact.fileName? = some instanceName :=
  Path.fileName?_join (a := "b92_inst.".toList) (c := 'v') instanceName_isName (by decide) (by decide)

theorem runOf?_artifact (o : RunOptions) : Verification.runOf? o.prover o.artifact = some o.proverRun := by
  rw [Verification.runOf?, fileName?_artifact, Option.map_some]
  rfl

/-- An instance that is there is checked by the run of the prover on it. -/
theorem verify_of_isFile {o : RunOptions} {fs : FileSystem} (h : fs.isFile o.artifact = true) (machine : Machine) :
    (Verification.verify machine fs o.prover o.artifact).1 = Verification.reportOf o.prover (machine fs o.proverRun) := by
  rw [Verification.verify, if_neg (Decidable.not_not.2 h), runOf?_artifact]

theorem success_reportOf (program : String) (outcome : RunOutcome) :
    (Verification.reportOf program outcome).success = true ↔ ∃ out err, outcome = .ended (some 0) out err := by
  cases outcome with
  | notFound => simp [Verification.reportOf, VerificationReport.failed]
  | notStarted reason => simp [Verification.reportOf, VerificationReport.failed]
  | ended code out err =>
    simp only [Verification.reportOf]
    by_cases hc : code = some 0
    · rw [if_pos hc, hc]
      simp
    · rw [if_neg hc]
      simp [hc]

theorem records_end (records : List LogRecord) (fs : FileSystem) :
    (forIn records PUnit.unit fun r _ => do
      say (.record r)
      pure (ForInStep.yield PUnit.unit) : Work PUnit).Ends fs (.ok PUnit.unit) fs := by
  induction records with
  | nil => exact .pure _ fs
  | cons r records ih =>
    rw [List.forIn_cons]
    exact .bind (.bind (.say _ fs) (.pure _ fs)) ih

/-- What a run says of a report, and how it ends with it. -/
def answer (artifact : Path) (report : VerificationReport) (records : List LogRecord) : Work Unit := do
  for r in records do
    say (.record r)
  if report.success then print "✓ Verification passed"
  else throw (.verify artifact (report.diagnostic.getD "unknown failure"))

theorem verify_after (machine : Machine) (prover : String) (artifact : Path) (w : World) :
    (verify machine prover artifact).after w =
      (answer artifact (Verification.verify machine w.files prover artifact).1
        (Verification.verify machine w.files prover artifact).2).after
          ⟨w.files, w.said ++ [.line ("→ Checking with " ++ prover)]⟩ := by
  have hprint : (print ("→ Checking with " ++ prover)).after w =
      (.ok (), ⟨w.files, w.said ++ [.line ("→ Checking with " ++ prover)]⟩) := rfl
  have hfiles : ∀ w : World, Work.files.after w = (.ok w.files, w) := fun w => rfl
  rw [verify, after_bind_ok hprint, after_bind_ok (hfiles _)]
  generalize Verification.verify machine w.files prover artifact = report
  obtain ⟨report, records⟩ := report
  rfl

theorem answer_failed {report : VerificationReport} (h : report.success = false) (artifact : Path)
    (records : List LogRecord) (fs : FileSystem) : (answer artifact report records).Ends fs
      (.error (.verify artifact (report.diagnostic.getD "unknown failure"))) fs := by
  rw [answer, if_neg (by rw [h]; exact Bool.false_ne_true)]
  exact .bind (records_end records fs) fun said => ⟨said, rfl⟩

theorem answer_ends (artifact : Path) (report : VerificationReport) (records : List LogRecord) (fs : FileSystem) :
    ∃ r, (answer artifact report records).Ends fs r fs ∧ (r = .ok () ↔ report.success = true) := by
  by_cases hs : report.success = true
  · rw [answer, if_pos hs]
    exact ⟨.ok (), .bind (records_end records fs) (.print _ fs), by simp [hs]⟩
  · exact ⟨_, answer_failed (Bool.not_eq_true _ ▸ hs) artifact records fs, by simp [hs]⟩

/-- Checking ends well if nothing is to be checked or the prover accepts. -/
theorem conclude_ends {o : RunOptions} {fs : FileSystem} (h : fs.isFile o.artifact = true) (machine : Machine) :
    ∃ r, (conclude machine o).Ends fs r fs ∧
      (r = .ok () ↔ o.skipVerify = true ∨ ∃ out err, machine fs o.proverRun = .ended (some 0) out err) := by
  unfold conclude
  by_cases hskip : o.skipVerify = true
  · rw [if_pos hskip]
    exact ⟨.ok (), .print _ fs, by simp [hskip]⟩
  rw [if_neg hskip]
  obtain ⟨r, hr, hsuccess⟩ := answer_ends o.artifact (Verification.verify machine fs o.prover o.artifact).1
    (Verification.verify machine fs o.prover o.artifact).2 fs
  refine ⟨r, fun said => ?_, ?_⟩
  · obtain ⟨said', he⟩ := hr (said ++ [.line ("→ Checking with " ++ o.prover)])
    exact ⟨said', (verify_after machine o.prover o.artifact ⟨fs, said⟩).trans he⟩
  · rw [hsuccess, verify_of_isFile h, success_reportOf]
    simp [hskip]

/-- Checking depends on one answer of the machine. -/
theorem conclude_congr {o : RunOptions} {machine machine' : Machine} {w : World}
    (h : machine' w.files o.proverRun = machine w.files o.proverRun) :
    (conclude machine' o).after w = (conclude machine o).after w := by
  have hv : Verification.verify machine' w.files o.prover o.artifact =
      Verification.verify machine w.files o.prover o.artifact := by
    simp only [Verification.verify, runOf?_artifact, h]
  unfold conclude
  by_cases hskip : o.skipVerify = true
  · rw [if_pos hskip, if_pos hskip]
  · rw [if_neg hskip, if_neg hskip, verify_after, verify_after, hv]

/-! ## The files -/

/-- Both files hold what a run from `fs` makes of its configuration. -/
def Holds (o : RunOptions) (fs files : FileSystem) : Prop :=
  ∃ p c text, Reaches o fs p c ∧ Instance.source p c = .ok text ∧
    files.read o.dumpPath = .ok (Utf8.encode (c.json true)) ∧ files.read o.artifact = .ok (Utf8.encode text)

theorem locate_names_differ {o : RunOptions} {fs : FileSystem} {l : Location} (hd : fs.locate o.dumpPath = .ok l) :
    fs.locate o.artifact ≠ .ok l := by
  intro ha
  obtain ⟨before, hb, -⟩ := Path.pieces_join (p := ⟨o.outDir⟩) certificateName_isName
  obtain ⟨before', hb', -⟩ := Path.pieces_join (p := ⟨o.outDir⟩) instanceName_isName
  have h1 := FileSystem.getLast?_of_locate hb certificateName_isName hd
  have h2 := FileSystem.getLast?_of_locate hb' instanceName_isName ha
  rw [h1] at h2
  exact absurd h2 (by decide)

theorem generate_eq {p : Protocol} {c : Certificate} {text : String} (h : Instance.source p c = .ok text) (fs : FileSystem)
    (path : Path) : Instance.generate fs path p c =
      ((fs.writeWithin path (Utf8.encode text)).1, (fs.writeWithin path (Utf8.encode text)).2.map .unwritable) := by
  rw [Instance.generate, h]
  rfl

theorem dump_within {c : Certificate} {fs fs' : FileSystem} {path : Path} {indented : Bool}
    {f : Option FileSystem.WriteFailure} (h : c.writeTo fs path indented = (fs', f)) : FileSystem.Within path fs fs' := by
  have hw := FileSystem.writeWithin_within fs path (Utf8.encode (c.json indented))
  rw [Certificate.writeTo] at h
  rwa [h] at hw

theorem generate_within {p : Protocol} {c : Certificate} {fs fs' : FileSystem} {path : Path} {e : Option GenerationError}
    (h : Instance.generate fs path p c = (fs', e)) : FileSystem.Within path fs fs' := by
  cases hs : Instance.source p c with
  | ok text =>
    rw [generate_eq hs, Prod.mk.injEq] at h
    rw [← h.1]
    exact FileSystem.writeWithin_within fs path _
  | error e =>
    rw [Instance.generate, hs, Prod.mk.injEq] at h
    rw [← h.1]
    exact .refl path fs

/-- A run that prepares both files leaves them with what it has made. -/
theorem holds_of_written {o : RunOptions} {fs mid fs' : FileSystem} {p : Protocol} {c : Certificate}
    (hr : Reaches o fs p c) (hd : c.writeTo fs o.dumpPath true = (mid, none))
    (hg : Instance.generate mid o.artifact p c = (fs', none)) : Holds o fs fs' := by
  cases hs : Instance.source p c with
  | error e =>
    rw [Instance.generate, hs] at hg
    cases hg
  | ok text =>
    rw [generate_eq hs, Prod.mk.injEq, Option.map_eq_none_iff] at hg
    have hw : mid.writeWithin o.artifact (Utf8.encode text) = (fs', none) := Prod.ext hg.1 hg.2
    have hwithin := FileSystem.writeWithin_within mid o.artifact (Utf8.encode text)
    rw [hw] at hwithin
    refine ⟨p, c, text, hr, hs, ?_, FileSystem.writeWithin_read hw⟩
    -- the dump is still where it was, and the instance is not there
    obtain ⟨l, hl, hc⟩ := FileSystem.read_eq_ok.1 (FileSystem.writeWithin_read hd)
    have hl' := hwithin.keeps.locate hl
    refine FileSystem.read_eq_ok.2 ⟨l, hl', ?_⟩
    rw [hwithin.content? (locate_names_differ hl'), hc]

theorem Holds.isFile {o : RunOptions} {fs files : FileSystem} (h : Holds o fs files) : files.isFile o.artifact = true := by
  obtain ⟨p, c, text, -, -, -, hread⟩ := h
  exact FileSystem.isFile_of_read hread

theorem Prepared.holds {o : RunOptions} {fs fs' : FileSystem} (h : Prepared o fs (.ok ()) fs') : Holds o fs fs' := by
  cases h with
  | written hr hd hg => exact holds_of_written hr hd hg

/-! ## How far preparing comes -/

theorem Reaches.unique {o : RunOptions} {fs : FileSystem} {p p' : Protocol} {c c' : Certificate} (h : Reaches o fs p c)
    (h' : Reaches o fs p' c') : p' = p ∧ c' = c := by
  have hp : p' = p := by
    have := h'.load.symm.trans h.load
    rwa [Except.ok.injEq] at this
  subst hp
  have := h'.normalize.symm.trans h.normalize
  rw [Except.ok.injEq] at this
  exact ⟨rfl, this⟩

namespace Prepared

variable {o : RunOptions} {fs fs' : FileSystem} {r : Except RunFailure Unit} (h : Prepared o fs r fs')

include h

theorem untouched (hn : ∀ p c, ¬Reaches o fs p c) : r ≠ .ok () ∧ fs' = fs := by
  cases h with
  | load => exact ⟨nofun, rfl⟩
  | normalize => exact ⟨nofun, rfl⟩
  | dump hr => exact absurd hr (hn _ _)
  | generate hr => exact absurd hr (hn _ _)
  | written hr => exact absurd hr (hn _ _)

/-- With a certificate the dump is written, and after it the instance. -/
theorem of_reaches {p : Protocol} {c : Certificate} (hr : Reaches o fs p c) :
    (∃ f, c.writeTo fs o.dumpPath true = (fs', some f) ∧ r = .error (.dump f)) ∨
      ∃ mid, c.writeTo fs o.dumpPath true = (mid, none) ∧
        ((∃ e, Instance.generate mid o.artifact p c = (fs', some e) ∧ r = .error (.generate e)) ∨
          Instance.generate mid o.artifact p c = (fs', none) ∧ r = .ok ()) := by
  cases h with
  | load hl =>
    rw [hr.load] at hl
    cases hl
  | normalize hl hn =>
    have hp := hr.load.symm.trans hl
    rw [Except.ok.injEq] at hp
    subst hp
    rw [hr.normalize] at hn
    cases hn
  | dump hr' hd =>
    obtain ⟨rfl, rfl⟩ := hr.unique hr'
    exact .inl ⟨_, hd, rfl⟩
  | generate hr' hd hg =>
    obtain ⟨rfl, rfl⟩ := hr.unique hr'
    exact .inr ⟨_, hd, .inl ⟨_, hg, rfl⟩⟩
  | written hr' hd hg =>
    obtain ⟨rfl, rfl⟩ := hr.unique hr'
    exact .inr ⟨_, hd, .inr ⟨hg, rfl⟩⟩

/-- Without a text the certificate is written, or that fails as well, and nothing else. -/
theorem of_error {p : Protocol} {c : Certificate} {e : GenerationError} (hr : Reaches o fs p c)
    (hs : Instance.source p c = .error e) :
    (∃ f, c.writeTo fs o.dumpPath true = (fs', some f) ∧ r = .error (.dump f)) ∨
      c.writeTo fs o.dumpPath true = (fs', none) ∧ r = .error (.generate e) := by
  have hgenerate : ∀ mid, Instance.generate mid o.artifact p c = (mid, some e) := by
    intro mid
    rw [Instance.generate, hs]
  rcases h.of_reaches hr with hf | ⟨mid, hd, ⟨e', hg, rfl⟩ | ⟨hg, -⟩⟩
  · exact .inl hf
  · rw [hgenerate, Prod.mk.injEq, Option.some.injEq] at hg
    obtain ⟨rfl, rfl⟩ := hg
    exact .inr ⟨hd, rfl⟩
  · rw [hgenerate] at hg
    cases hg

theorem stopped {p : Protocol} {c : Certificate} {e : GenerationError} (hr : Reaches o fs p c)
    (hs : Instance.source p c = .error e) : r ≠ .ok () ∧ FileSystem.Within o.dumpPath fs fs' := by
  rcases h.of_error hr hs with ⟨f, hd, rfl⟩ | ⟨hd, rfl⟩
  · exact ⟨nofun, dump_within hd⟩
  · exact ⟨nofun, dump_within hd⟩

/-- Where both files can be written, preparing them succeeds. -/
theorem of_written {p : Protocol} {c : Certificate} {mid files : FileSystem} (hr : Reaches o fs p c)
    (hd : c.writeTo fs o.dumpPath true = (mid, none)) (hg : Instance.generate mid o.artifact p c = (files, none)) :
    r = .ok () ∧ fs' = files := by
  rcases h.of_reaches hr with ⟨f, hd', -⟩ | ⟨mid', hd', ⟨e, hg', -⟩ | ⟨hg', hok⟩⟩
  · rw [hd] at hd'
    cases hd'
  · rw [hd] at hd'
    cases hd'
    rw [hg] at hg'
    cases hg'
  · rw [hd] at hd'
    cases hd'
    rw [hg] at hg'
    cases hg'
    exact ⟨hok, rfl⟩

/-- The dump is written first, and then the instance. -/
theorem within : ∃ mid, FileSystem.Within o.dumpPath fs mid ∧ FileSystem.Within o.artifact mid fs' := by
  cases h with
  | load => exact ⟨fs, .refl _ _, .refl _ _⟩
  | normalize => exact ⟨fs, .refl _ _, .refl _ _⟩
  | dump _ hd => exact ⟨fs', dump_within hd, .refl _ _⟩
  | generate _ hd hg => exact ⟨_, dump_within hd, generate_within hg⟩
  | written _ hd hg => exact ⟨_, dump_within hd, generate_within hg⟩

theorem contents {l : Location} (hc : fs'.content? l ≠ fs.content? l) :
    fs'.locate o.dumpPath = .ok l ∨ fs'.locate o.artifact = .ok l := by
  obtain ⟨mid, hdump, hartifact⟩ := h.within
  by_cases ha : fs'.locate o.artifact = .ok l
  · exact .inr ha
  by_cases hd : mid.locate o.dumpPath = .ok l
  · exact .inl (hartifact.keeps.locate hd)
  · exact absurd ((hartifact.content? ha).trans (hdump.content? hd)) hc

end Prepared

/-! ## The whole run -/

/-- A run whose files cannot be prepared asks no prover. -/
theorem run_unprepared {o : RunOptions} {fs fs' : FileSystem} {e : RunFailure} (h : (prepare o).Ends fs (.error e) fs') :
    ∃ said, ∀ machine, (run machine o).after ⟨fs, []⟩ = (.error e, ⟨fs', said⟩) := by
  obtain ⟨said, hp⟩ := h []
  refine ⟨said, fun machine => ?_⟩
  rw [run_eq]
  exact after_bind_error hp _

/-- A run whose files are prepared has them checked. -/
theorem run_prepared {o : RunOptions} {fs fs' : FileSystem} (h : (prepare o).Ends fs (.ok ()) fs') :
    ∃ said, ∀ machine, (run machine o).after ⟨fs, []⟩ = (conclude machine o).after ⟨fs', said⟩ := by
  obtain ⟨said, hp⟩ := h []
  refine ⟨said, fun machine => ?_⟩
  rw [run_eq]
  exact after_bind_ok hp _

end Pipeline

namespace CommandLine

open Pipeline

/-- How the program ends with what its run comes to. -/
def Outcome.ofResult (verbosity : Nat) : Except RunFailure Unit × World → Outcome
  | (.ok (), w) => ⟨0, w.files, w.said.filter (isShown verbosity), ""⟩
  | (.error e, w) => ⟨1, w.files, w.said.filter (isShown verbosity), errorText e⟩

theorem execute_run (machine : Machine) (fs : FileSystem) (o : RunOptions) (verbosity : Nat) :
    execute machine fs (.run o verbosity) = .ofResult verbosity ((Pipeline.run machine o).after ⟨fs, []⟩) := by
  unfold execute
  simp only
  rcases h : (Pipeline.run machine o).after ⟨fs, []⟩ with ⟨_ | u, w⟩
  · have h : (Pipeline.run machine o).run.run ⟨fs, []⟩ = _ := h
    rw [h]
    rfl
  · have h : (Pipeline.run machine o).run.run ⟨fs, []⟩ = _ := h
    rw [h]
    rfl

theorem code_ofResult (verbosity : Nat) (r : Except RunFailure Unit × World) :
    (Outcome.ofResult verbosity r).code = if r.1.isOk then 0 else 1 := by
  obtain ⟨_ | _, w⟩ := r <;> rfl

theorem files_ofResult (verbosity : Nat) (r : Except RunFailure Unit × World) :
    (Outcome.ofResult verbosity r).files = r.2.files := by
  obtain ⟨_ | _, w⟩ := r <;> rfl

/-- What a run does, `ends` being how it ends with each machine. -/
structure RunEffects (o : RunOptions) (fs : FileSystem) (ends : Machine → Outcome) (machine : Machine) : Prop where
  /-- Without a certificate nothing is touched. -/
  untouched : (∀ p c, ¬Reaches o fs p c) → (ends machine).code = 1 ∧ (ends machine).files = fs
  /-- Without a text nothing is written but the certificate, and no prover is asked. -/
  stopped : ∀ p c e, Reaches o fs p c → Instance.source p c = .error e →
    (ends machine).code = 1 ∧ (∀ machine', ends machine' = ends machine) ∧
      FileSystem.Within o.dumpPath fs (ends machine).files ∧
        ∀ l, (ends machine).files.locate o.artifact = .ok l → (ends machine).files.content? l = fs.content? l
  /-- The files that were written stay as they are, whatever the prover answers. -/
  written : ∀ p c mid files, Reaches o fs p c → c.writeTo fs o.dumpPath true = (mid, none) →
    Instance.generate mid o.artifact p c = (files, none) → (ends machine).files = files ∧ Holds o fs files
  /-- The prover is asked about files that both hold what was made of the configuration, and
      about no others. -/
  asked : ∀ machine', (∀ files, Holds o fs files → machine' files o.proverRun = machine files o.proverRun) →
    ends machine' = ends machine
  /-- No other file has another content than before. -/
  contents : ∀ l, (ends machine).files.content? l ≠ fs.content? l →
    (ends machine).files.locate o.dumpPath = .ok l ∨ (ends machine).files.locate o.artifact = .ok l
  code : (ends machine).code = 0 ∨ (ends machine).code = 1
  /-- The exit code is 0 exactly if all stages succeed and the prover is left out or accepts. -/
  success : (ends machine).code = 0 ↔ ∃ p c mid files, Reaches o fs p c ∧ c.writeTo fs o.dumpPath true = (mid, none) ∧
    Instance.generate mid o.artifact p c = (files, none) ∧
      (o.skipVerify = true ∨ ∃ out err, machine files o.proverRun = .ended (some 0) out err)

theorem runEffects_of_error {o : RunOptions} {fs fs' : FileSystem} {e : RunFailure} {ends : Machine → Outcome}
    {said : List Said} {verbosity : Nat} (hp : Prepared o fs (.error e) fs')
    (hends : ∀ machine, ends machine = .ofResult verbosity (.error e, ⟨fs', said⟩)) (machine : Machine) :
    RunEffects o fs ends machine := by
  have hcode : (ends machine).code = 1 := by
    rw [hends]
    rfl
  have hfiles : (ends machine).files = fs' := by
    rw [hends]
    rfl
  constructor
  · intro hn
    exact ⟨hcode, hfiles.trans (hp.untouched hn).2⟩
  · intro p c e' hr hs
    have hw := (hp.stopped hr hs).2
    rw [hfiles]
    refine ⟨hcode, fun machine' => by rw [hends, hends], hw, fun l hl => hw.content? ?_⟩
    intro hd
    exact locate_names_differ hd hl
  · intro p c mid files hr hd hg
    cases (hp.of_written hr hd hg).1
  · intro machine' _
    rw [hends, hends]
  · intro l hl
    rw [hfiles] at hl ⊢
    exact hp.contents hl
  · exact .inr hcode
  · rw [hcode]
    constructor
    · intro h
      cases h
    · rintro ⟨p, c, mid, files, hr, hd, hg, -⟩
      cases (hp.of_written hr hd hg).1

theorem runEffects_of_ok {o : RunOptions} {fs fs' : FileSystem} {ends : Machine → Outcome} {said : List Said}
    {verbosity : Nat} (hp : Prepared o fs (.ok ()) fs')
    (hends : ∀ machine, ends machine = .ofResult verbosity ((conclude machine o).after ⟨fs', said⟩)) (machine : Machine) :
    RunEffects o fs ends machine := by
  obtain ⟨p, c, mid, hr, hd, hg⟩ : ∃ p c mid, Reaches o fs p c ∧ c.writeTo fs o.dumpPath true = (mid, none) ∧
      Instance.generate mid o.artifact p c = (fs', none) := by
    cases hp with
    | written hr hd hg => exact ⟨_, _, _, hr, hd, hg⟩
  have hholds : Holds o fs fs' := hp.holds
  obtain ⟨r, hconclude, hok⟩ := conclude_ends hholds.isFile machine
  obtain ⟨said', hafter⟩ := hconclude said
  have hend : ends machine = .ofResult verbosity (r, ⟨fs', said'⟩) := by rw [hends, hafter]
  have hcode : (ends machine).code = if r.isOk then 0 else 1 := by rw [hend, code_ofResult]
  have hfiles : (ends machine).files = fs' := by rw [hend, files_ofResult]
  constructor
  · intro hn
    exact absurd hr (hn p c)
  · intro p' c' e hr' hs
    exact absurd rfl (hp.stopped hr' hs).1
  · intro p' c' mid' files hr' hd' hg'
    rw [← (hp.of_written hr' hd' hg').2]
    exact ⟨hfiles, hholds⟩
  · intro machine' hsame
    rw [hends, hends, conclude_congr (hsame fs' hholds)]
  · intro l hl
    rw [hfiles] at hl ⊢
    exact hp.contents hl
  · rw [hcode]
    cases r.isOk
    · exact .inr rfl
    · exact .inl rfl
  · have hzero : (ends machine).code = 0 ↔ r = .ok () := by
      rw [hcode]
      cases r with
      | error e => simp [Except.isOk, Except.toBool]
      | ok u => simp [Except.isOk, Except.toBool]
    rw [hzero, hok]
    constructor
    · intro h
      exact ⟨p, c, mid, fs', hr, hd, hg, h⟩
    · rintro ⟨p', c', mid', files, hr', hd', hg', h⟩
      rwa [(hp.of_written hr' hd' hg').2]

/-- A command that is no run touches no file and succeeds; a run has these effects. -/
theorem respond_effects (machine : Machine) (environment : Option String) (args : List String) (fs : FileSystem)
    (command : CommandLine) (h : parse? environment args = some command) :
    (∀ o verbosity, command = .run o verbosity → RunEffects o fs (fun m => respond m environment args fs) machine) ∧
      ((∀ o verbosity, command ≠ .run o verbosity) →
        (respond machine environment args fs).code = 0 ∧ (respond machine environment args fs).files = fs) := by
  have hrespond : ∀ m, respond m environment args fs = execute m fs command := by
    intro m
    rw [respond, h]
  constructor
  · rintro o verbosity rfl
    obtain ⟨r, fs', hp, hends⟩ := prepare_prepared o fs
    cases r with
    | error e =>
      obtain ⟨said, hafter⟩ := run_unprepared hends
      have hends : ∀ m, respond m environment args fs = .ofResult verbosity (.error e, ⟨fs', said⟩) := by
        intro m
        rw [hrespond, execute_run, hafter]
      exact runEffects_of_error hp hends machine
    | ok u =>
      obtain ⟨said, hafter⟩ := run_prepared hends
      have hends : ∀ m, respond m environment args fs = .ofResult verbosity ((conclude m o).after ⟨fs', said⟩) := by
        intro m
        rw [hrespond, execute_run, hafter]
      exact runEffects_of_ok hp hends machine
  · intro hn
    rw [hrespond]
    cases command with
    | run o verbosity => exact absurd rfl (hn o verbosity)
    | version => exact ⟨rfl, rfl⟩
    | help => exact ⟨rfl, rfl⟩

/-- A file system with nothing in it. -/
def bareFiles : FileSystem := ⟨fun l => if l = [] then some .directory else none, []⟩

/-- Without a configuration the program fails and touches nothing, whatever prover there might be. -/
theorem respond_effects_bare :
    parse? none ["-o", "out"] = some (.run ((⟨none, some "out", none, none, false, 0⟩ : Arguments).toOptions none) 0) ∧
      (respond (fun _ _ => .notFound) none ["-o", "out"] bareFiles).code = 1 ∧
        (respond (fun _ _ => .notFound) none ["-o", "out"] bareFiles).files = bareFiles := by
  have hparse : parse? none ["-o", "out"] =
      some (.run ((⟨none, some "out", none, none, false, 0⟩ : Arguments).toOptions none) 0) := by rfl
  have heffects := (respond_effects (fun _ _ => .notFound) none ["-o", "out"] bareFiles _ hparse).1 _ _ rfl
  refine ⟨hparse, heffects.untouched fun p c hr => ?_⟩
  have hmissing : bareFiles.has ⟨Arguments.defaultConfig⟩ = false := by decide
  obtain ⟨format, hformat, -⟩ := Outcome.bind_eq_ok.1 hr.load
  rw [Protocol.formatOf] at hformat
  simp only [Arguments.toOptions, Option.getD_none, hmissing] at hformat
  cases hformat

end CommandLine

end PhaseCert
