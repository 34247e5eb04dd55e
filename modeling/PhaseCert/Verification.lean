/-
  PhaseCert.Verification — checking a proof artifact with a prover.

  The prover is run on the artifact from the directory it is in, and accepts it by ending
  with exit code 0. A report says whether it did, what it printed, and if it did not accept,
  why.
-/
import PhaseCert.Log
import PhaseCert.Process.Basic
import PhaseCert.Text.Blank

namespace PhaseCert

inductive VerificationError where
  /-- There is no such file. -/
  | noArtifact (artifact : Path)
  | noProver (program : String)
  | notStarted (program reason : String)
  /-- The prover ended otherwise than with exit code 0, `none` by a signal. -/
  | rejected (program : String) (code : Option Int) (stderr : String)
  deriving DecidableEq

namespace VerificationError

def endText : Option Int → String
  | some code => "status " ++ toString code
  | none => "no status (terminated by signal)"

def message : VerificationError → String
  | .noArtifact artifact => "Proof artifact not found: " ++ artifact.text
  | .noProver program => "Prover '" ++ program ++ "' not found on PATH"
  | .notStarted program reason => "Failed to run '" ++ program ++ "': " ++ reason
  | .rejected program code _ => "'" ++ program ++ "' exited with " ++ endText code

end VerificationError

structure VerificationReport where
  success : Bool
  stdout : String
  stderr : String
  error : Option VerificationError
  deriving DecidableEq

namespace VerificationReport

/-- Nothing was run. -/
def failed (e : VerificationError) : VerificationReport := ⟨false, "", "", some e⟩

/-- What to tell a user after a failure: what the prover wrote to standard error, unless
    that is blank, and then what is wrong. -/
def diagnostic (r : VerificationReport) : Option String :=
  if r.success then none
  else if trimBlanks r.stderr = "" then r.error.map (·.message)
  else some (trimBlanks r.stderr)

end VerificationReport

namespace Verification

def defaultProver : String := "coqc"

/-- The run of a prover on an artifact. -/
def runOf? (program : String) (artifact : Path) : Option Run :=
  artifact.fileName?.map fun file => ⟨program, artifact.properParent?.getD ⟨"."⟩, file⟩

def reportOf (program : String) : RunOutcome → VerificationReport
  | .notFound => .failed (.noProver program)
  | .notStarted reason => .failed (.notStarted program reason)
  | .ended code stdout stderr =>
    let out := Utf8.lossy stdout
    let err := Utf8.lossy stderr
    if code = some 0 then ⟨true, out, err, none⟩
    else ⟨false, out, err, some (.rejected program (code.map Int.ofNat) err)⟩

/-- What is said about a report, after the run was announced. -/
def outcomeRecord (program : String) (artifact : Path) (r : VerificationReport) : LogRecord :=
  match r.error with
  | none => ⟨.info, program ++ " accepted " ++ artifact.text⟩
  | some (.rejected _ code _) =>
    ⟨.warn, program ++ " rejected " ++ artifact.text ++ " (" ++ VerificationError.endText code ++ ")"⟩
  | some (.noProver _) => ⟨.warn, "Prover '" ++ program ++ "' not found"⟩
  | some e => ⟨.warn, e.message⟩

/-- Checks an artifact. The prover is not run if the artifact is no file. -/
def verify (machine : Machine) (fs : FileSystem) (program : String) (artifact : Path) :
    VerificationReport × List LogRecord :=
  if ¬fs.isFile artifact then
    (.failed (.noArtifact artifact),
      [⟨.warn, "Skipping verification, " ++ artifact.text ++ " does not exist"⟩])
  else
    match runOf? program artifact with
    | none => (.failed (.noArtifact artifact), [])
    | some run =>
      let report := reportOf program (machine fs run)
      (report,
        [⟨.debug, "Running " ++ program ++ " " ++ run.file ++ " in " ++ run.directory.text⟩,
          outcomeRecord program artifact report])

end Verification

end PhaseCert
