/-
  PhaseCert.Process.Basic — running a program on a file.

  A run is a program, the directory that it is started in, and the name of the one file that
  it is given. Its standard input is empty. A machine says what comes of a run.
-/
import PhaseCert.Files.FileSystem

namespace PhaseCert

structure Run where
  program : String
  directory : Path
  file : String

inductive RunOutcome where
  /-- There is no such program. -/
  | notFound
  /-- The program could not be started. -/
  | notStarted (reason : String)
  /-- The program ended, with an exit code unless a signal ended it. -/
  | ended (code : Option Nat) (stdout stderr : Bytes)
  deriving DecidableEq

/-- What comes of a run on a file system, which it leaves as it is. -/
abbrev Machine := FileSystem → Run → RunOutcome

end PhaseCert
