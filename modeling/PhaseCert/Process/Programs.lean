/-
  PhaseCert.Process.Programs — a machine with four programs.

  `sh` runs the file as a script, `cat` prints it, `true` and `false` do nothing and end with
  success and failure. A program is given by its name, or by a path into one of the two
  directories that hold the programs. Other files and directories cannot be run.
-/
import PhaseCert.Process.Script

namespace PhaseCert.Programs

inductive Program where
  | shell
  | printer
  | success
  | failure

def named? (name : String) : Option Program :=
  if name = "sh" then some .shell
  else if name = "cat" then some .printer
  else if name = "true" then some .success
  else if name = "false" then some .failure
  else none

def directories : List String := ["/bin/", "/usr/bin/"]

def atPath? (path : String) : Option Program :=
  directories.findSome? fun d => (path.dropPrefix? d).bind fun rest => named? rest.toString

/-- The file of a run, from the directory that it is started in. -/
def content? (fs : FileSystem) (r : Run) : FileSystem.Result Bytes := do
  let here ← fs.locate r.directory
  { fs with working := here }.read ⟨r.file⟩

def Program.run (fs : FileSystem) (r : Run) : Program → RunOutcome
  | .shell =>
    match content? fs r with
    | .ok bytes => Script.run r.file (Utf8.lossy bytes)
    | .error _ => .ended (some 2) [] []
  | .printer =>
    match content? fs r with
    | .ok bytes => .ended (some 0) bytes []
    | .error _ => .ended (some 1) [] []
  | .success => .ended (some 0) [] []
  | .failure => .ended (some 1) [] []

def notStarted (e : FileError) : RunOutcome := .notStarted e.message

/-- A path that leads to none of the programs: what is there cannot be run. -/
def unusable (fs : FileSystem) (r : Run) : RunOutcome :=
  match fs.locate r.directory with
  | .error e => notStarted e
  | .ok here =>
    match { fs with working := here }.locate ⟨r.program⟩ with
    | .ok _ => notStarted .permissionDenied
    | .error .notFound => .notFound
    | .error e => notStarted e

def machine : Machine := fun fs r =>
  let cs := r.program.toList
  if cs.contains '\x00' then .notStarted "nul byte found in provided data"
  else if cs.contains '/' then
    match atPath? r.program with
    | some p => p.run fs r
    | none => unusable fs r
  else
    match named? r.program with
    | some p => p.run fs r
    | none =>
      if r.program = "." ∨ r.program = ".." then notStarted .permissionDenied
      else if FileSystem.maxName < r.program.utf8ByteSize then notStarted .nameTooLong
      else .notFound

end PhaseCert.Programs
