/-
  PhaseCert.Proofs.Pipeline.Verdict — every failed check comes with an explanation.

  Either there is nothing to check, or the report is made of what came of the prover's run
  (`verify_cases`), and only a prover that ended has said anything. In every case the parts of
  the report agree (`Explained`): there is an error, and with it something to tell the user,
  exactly if there is no success. A run that fails in the check tells the user just that, so the
  text that stands in for a missing reason is never printed (`verify_explained`).
-/
import PhaseCert.Proofs.Pipeline.Report
import PhaseCert.Proofs.Text.Blank

namespace PhaseCert

namespace VerificationError

/-- The prover ended, and otherwise than with exit code 0. -/
def IsRejection : VerificationError → Prop
  | .rejected _ _ _ => True
  | _ => False

theorem message_ne_empty (e : VerificationError) : e.message ≠ "" := by
  have happend : ∀ a b : String, a ≠ "" → a ++ b ≠ "" := fun a b ha h => ha (String.append_eq_empty_iff.1 h).1
  cases e with
  | noArtifact => exact happend _ _ (by decide)
  | noProver => exact happend _ _ (happend _ _ (by decide))
  | notStarted => exact happend _ _ (happend _ _ (happend _ _ (by decide)))
  | rejected => exact happend _ _ (happend _ _ (happend _ _ (by decide)))

end VerificationError

/-! ## Reports -/

namespace VerificationReport

/-- The parts of a report agree. -/
structure Explained (r : VerificationReport) : Prop where
  error : r.error = none ↔ r.success = true
  diagnostic : r.diagnostic = none ↔ r.success = true
  nonempty : ∀ text, r.diagnostic = some text → text ≠ ""
  /-- The user is told what the prover wrote to standard error, without the blanks around it. -/
  written : ∀ text, r.diagnostic = some text → ¬AllBlank r.stderr.toList → Stripped r.stderr text
  /-- If that is nothing but blanks, the user is told the error. -/
  blank : ∀ text, r.diagnostic = some text → AllBlank r.stderr.toList → ∃ e, r.error = some e ∧ e.message = text
  rejected : ∀ program code stderr, r.error = some (.rejected program code stderr) → stderr = r.stderr
  silent : ∀ e, r.error = some e → ¬e.IsRejection → r.stdout = "" ∧ r.stderr = ""

theorem diagnostic_of_success {r : VerificationReport} (h : r.success = true) : r.diagnostic = none := by
  rw [diagnostic, if_pos h]

theorem diagnostic_of_blank {r : VerificationReport} (h : r.success = false) (hb : AllBlank r.stderr.toList) :
    r.diagnostic = r.error.map (·.message) := by
  rw [diagnostic, h, if_neg Bool.false_ne_true, if_pos (trimBlanks_eq_empty_iff.2 hb)]

theorem diagnostic_of_written {r : VerificationReport} (h : r.success = false) (hb : ¬AllBlank r.stderr.toList) :
    r.diagnostic = some (trimBlanks r.stderr) := by
  rw [diagnostic, h, if_neg Bool.false_ne_true, if_neg (mt trimBlanks_eq_empty_iff.1 hb)]

/-- What the user is told is right if the error is there when it should be. -/
theorem Explained.of_error {r : VerificationReport} (error : r.error = none ↔ r.success = true)
    (rejected : ∀ program code stderr, r.error = some (.rejected program code stderr) → stderr = r.stderr)
    (silent : ∀ e, r.error = some e → ¬e.IsRejection → r.stdout = "" ∧ r.stderr = "") : r.Explained := by
  cases hs : r.success with
  | true =>
    have hd := diagnostic_of_success hs
    exact ⟨error, by simp [hd, hs], by simp [hd], by simp [hd], by simp [hd], rejected, silent⟩
  | false =>
    obtain ⟨e, he⟩ : ∃ e, r.error = some e := by
      rw [← Option.ne_none_iff_exists', Ne, error, hs]
      exact Bool.false_ne_true
    by_cases hb : AllBlank r.stderr.toList
    · have hd : r.diagnostic = some e.message := by rw [diagnostic_of_blank hs hb, he, Option.map_some]
      refine ⟨error, by simp [hd, hs], ?_, fun _ _ h => absurd hb h, ?_, rejected, silent⟩
      · rintro text ht rfl
        exact e.message_ne_empty (Option.some.inj (hd.symm.trans ht))
      · intro text ht _
        exact ⟨e, he, Option.some.inj (hd.symm.trans ht)⟩
    · have hd := diagnostic_of_written hs hb
      refine ⟨error, by simp [hd, hs], ?_, ?_, fun _ _ h => absurd h hb, rejected, silent⟩
      · rintro text ht rfl
        exact hb (trimBlanks_eq_empty_iff.1 (Option.some.inj (hd.symm.trans ht)))
      · intro text ht _
        exact stripped_iff.2 (Option.some.inj (hd.symm.trans ht))

/-- Nothing was run, and it is said why. -/
theorem explained_failed {e : VerificationError} (h : ¬e.IsRejection) : (failed e).Explained := by
  refine .of_error (by simp [failed]) ?_ (fun _ _ _ => ⟨rfl, rfl⟩)
  intro program code stderr he
  cases he
  exact absurd trivial h

end VerificationReport

/-! ## Checks -/

namespace Verification

open VerificationReport

/-- The prover was started on the artifact, and ended like this. -/
def Ended (machine : Machine) (fs : FileSystem) (program : String) (artifact : Path) (code : Option Nat)
    (stdout stderr : Bytes) : Prop :=
  ∃ run, runOf? program artifact = some run ∧ machine fs run = .ended code stdout stderr

/-- There is nothing to check, or the report is that of the prover's run. -/
theorem verify_cases (machine : Machine) (fs : FileSystem) (program : String) (artifact : Path) :
    (verify machine fs program artifact).1 = .failed (.noArtifact artifact) ∧
        (fs.isFile artifact = false ∨ runOf? program artifact = none) ∨
      ∃ run, fs.isFile artifact = true ∧ runOf? program artifact = some run ∧
        (verify machine fs program artifact).1 = reportOf program (machine fs run) := by
  unfold verify
  by_cases hfile : fs.isFile artifact = true
  · rw [if_neg (Decidable.not_not.2 hfile)]
    cases hrun : runOf? program artifact with
    | none => exact .inl ⟨rfl, .inr rfl⟩
    | some run => exact .inr ⟨run, hfile, rfl, rfl⟩
  · rw [if_pos hfile]
    exact .inl ⟨rfl, .inl (Bool.not_eq_true _ ▸ hfile)⟩

theorem explained_reportOf (program : String) (outcome : RunOutcome) : (reportOf program outcome).Explained := by
  cases outcome with
  | notFound => exact explained_failed id
  | notStarted reason => exact explained_failed id
  | ended code stdout stderr =>
    rw [reportOf]
    by_cases hc : code = some 0
    · rw [if_pos hc]
      exact .of_error (by simp) (fun _ _ _ he => by cases he) (fun _ he _ => by cases he)
    · rw [if_neg hc]
      refine .of_error (by simp) ?_ ?_
      · intro program code stderr he
        cases he
        rfl
      · intro e he hn
        cases he
        exact absurd trivial hn

theorem verify_report_explained (machine : Machine) (fs : FileSystem) (program : String) (artifact : Path) :
    (verify machine fs program artifact).1.Explained := by
  rcases verify_cases machine fs program artifact with ⟨h, -⟩ | ⟨run, -, -, h⟩
  · rw [h]
    exact explained_failed id
  · rw [h]
    exact explained_reportOf program _

/-- Success is that there is a file, and the prover was started on it and ended with code 0. -/
theorem verify_success {machine : Machine} {fs : FileSystem} {program : String} {artifact : Path} :
    (verify machine fs program artifact).1.success = true ↔
      fs.isFile artifact = true ∧ ∃ stdout stderr, Ended machine fs program artifact (some 0) stdout stderr := by
  rcases verify_cases machine fs program artifact with ⟨h, hnone⟩ | ⟨run, hfile, hrun, h⟩
  · rw [h]
    constructor
    · intro hs
      cases hs
    · rintro ⟨hfile, stdout, stderr, run, hrun, -⟩
      rw [hfile, hrun] at hnone
      simp at hnone
  · rw [h, Pipeline.success_reportOf]
    simp [Ended, hfile, hrun]

/-- What the prover printed is reported, whatever its exit code. -/
theorem verify_streams {machine : Machine} {fs : FileSystem} {program : String} {artifact : Path} {code : Option Nat}
    {stdout stderr : Bytes} (hfile : fs.isFile artifact = true) (h : Ended machine fs program artifact code stdout stderr) :
    (verify machine fs program artifact).1.stdout = Utf8.lossy stdout ∧
      (verify machine fs program artifact).1.stderr = Utf8.lossy stderr := by
  obtain ⟨run, hrun, hm⟩ := h
  rcases verify_cases machine fs program artifact with ⟨-, hnone⟩ | ⟨run', -, hrun', h⟩
  · rw [hfile, hrun] at hnone
    simp at hnone
  · cases hrun.symm.trans hrun'
    rw [h, hm, reportOf]
    by_cases hc : code = some 0
    · rw [if_pos hc]
      exact ⟨rfl, rfl⟩
    · rw [if_neg hc]
      exact ⟨rfl, rfl⟩

end Verification

/-! ## Runs that fail in the check -/

namespace Pipeline

open Work

/-- A check that fails gives the reason that the report gives, and changes no file. -/
theorem verify_failed {machine : Machine} {prover : String} {artifact : Path} {w w' : World} {e : RunFailure}
    (h : (verify machine prover artifact).after w = (.error e, w')) :
    w'.files = w.files ∧ ∃ reason, e = .verify artifact reason ∧
      (Verification.verify machine w.files prover artifact).1.diagnostic = some reason := by
  have hexplained := Verification.verify_report_explained machine w.files prover artifact
  rw [verify_after] at h
  generalize Verification.verify machine w.files prover artifact = v at h hexplained ⊢
  cases hs : v.1.success with
  | true =>
    obtain ⟨r, hends, hok⟩ := answer_ends artifact v.1 v.2 w.files
    obtain ⟨said, hafter⟩ := hends (w.said ++ [.line ("→ Checking with " ++ prover)])
    rw [hok.2 hs] at hafter
    cases hafter.symm.trans h
  | false =>
    obtain ⟨said, hafter⟩ := answer_failed hs artifact v.2 w.files (w.said ++ [.line ("→ Checking with " ++ prover)])
    cases hafter.symm.trans h
    obtain ⟨reason, hreason⟩ : ∃ reason, v.1.diagnostic = some reason := by
      rw [← Option.ne_none_iff_exists', Ne, hexplained.diagnostic, hs]
      exact Bool.false_ne_true
    exact ⟨rfl, reason, by rw [hreason, Option.getD_some], hreason⟩

theorem run_failed_check {machine : Machine} {o : RunOptions} {fs : FileSystem} {w : World} {artifact : Path}
    {reason : String} (h : (run machine o).after ⟨fs, []⟩ = (.error (.verify artifact reason), w)) :
    artifact = o.artifact ∧
      (Verification.verify machine w.files o.prover o.artifact).1.diagnostic = some reason := by
  obtain ⟨r, fs', hp, hends⟩ := prepare_prepared o fs
  cases r with
  | error e =>
    obtain ⟨said, hafter⟩ := run_unprepared hends
    cases (hafter machine).symm.trans h
    exact absurd rfl (hp.ne_verify artifact reason)
  | ok u =>
    obtain ⟨said, hafter⟩ := run_prepared hends
    rw [hafter machine, conclude] at h
    by_cases hskip : o.skipVerify = true
    · rw [if_pos hskip] at h
      cases h
    rw [if_neg hskip] at h
    obtain ⟨hfiles, reason', he, hdiagnostic⟩ := verify_failed h
    cases he
    rw [hfiles]
    exact ⟨rfl, hdiagnostic⟩

end Pipeline

namespace CommandLine

open Pipeline Verification

/-- The report of a check says success exactly if there is such a file and the prover was
    started on it and ended with exit code 0. It has an error, and with it something to tell the
    user, exactly if not: what the prover wrote to standard error, or else the message of the
    error. A run that fails in the check prints that. -/
theorem verify_explained (machine : Machine) (fs : FileSystem) (program : String) (artifact : Path) :
    (verify machine fs program artifact).1.Explained ∧
      ((verify machine fs program artifact).1.success = true ↔
        fs.isFile artifact = true ∧ ∃ stdout stderr, Ended machine fs program artifact (some 0) stdout stderr) ∧
      (∀ code stdout stderr, fs.isFile artifact = true → Ended machine fs program artifact code stdout stderr →
        (verify machine fs program artifact).1.stdout = Utf8.lossy stdout ∧
          (verify machine fs program artifact).1.stderr = Utf8.lossy stderr) ∧
      ∀ environment args o verbosity, parse? environment args = some (.run o verbosity) →
        ∀ failed reason w, (Pipeline.run machine o).after ⟨fs, []⟩ = (.error (.verify failed reason), w) →
          failed = o.artifact ∧ (verify machine w.files o.prover o.artifact).1.diagnostic = some reason ∧
            (respond machine environment args fs).stderr = errorText (.verify o.artifact reason) := by
  refine ⟨verify_report_explained machine fs program artifact, verify_success, ?_, ?_⟩
  · intro code stdout stderr hfile h
    exact verify_streams hfile h
  · intro environment args o verbosity hparse failed reason w h
    obtain ⟨rfl, hdiagnostic⟩ := run_failed_check h
    refine ⟨rfl, hdiagnostic, ?_⟩
    rw [respond, hparse]
    show (execute machine fs (.run o verbosity)).stderr = _
    rw [execute_run, h]
    rfl

end CommandLine

end PhaseCert
