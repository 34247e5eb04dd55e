/-
  PhaseCert.Main — the program on a real file system.

  Before a run the places that it can look at are read: the configuration, and the output
  directory with what is written there, each with all that is above it. After it what has
  changed among them is written back. Provers are the programs of `Programs.machine`.
-/
import PhaseCert.CommandLine
import PhaseCert.Process.Programs

namespace PhaseCert.Main

def location (absolute : String) : Location :=
  ((⟨absolute⟩ : Path).pieces).filter (· ≠ "")

def pathText (l : Location) : String := "/" ++ String.intercalate "/" l

/-- The places that a path passes through, ending with the one it leads to. -/
def passed (start : Location) (names : List String) : List Location :=
  names.foldl
    (fun places name =>
      let here := places.getLast?.getD start
      if name = "" ∨ name = "." then places
      else if name = ".." then places ++ [here.dropLast]
      else places ++ [here ++ [name]])
    [start]

/-- A place with all that are above it, the root first. -/
def above (l : Location) : List Location := (List.range (l.length + 1)).map l.take

/-- The paths that a run looks at. -/
def pathsOf : CommandLine → List Path
  | .run o _ =>
    let outDir : Path := ⟨o.outDir⟩
    [⟨o.config⟩, outDir.join Pipeline.certificateName, outDir.join Pipeline.instanceName]
  | _ => []

def placesOf (working : Location) (c : CommandLine) : List Location :=
  ((pathsOf c).flatMap fun p =>
    (passed (if p.isAbsolute then [] else working) p.pieces).flatMap above).eraseDups

def nodeAt (l : Location) : IO (Option FileNode) := do
  let p := (← IO.currentDir) / pathText l
  if ← p.isDir then return some .directory
  else if ← p.pathExists then
    return some (.file ((← IO.FS.readBinFile p).toList.map UInt8.toNat))
  else return none

def snapshot (working : Location) (places : List Location) : IO FileSystem := do
  let found ← places.mapM fun l => do return (l, ← nodeAt l)
  return ⟨fun l => (found.lookup l).join, working⟩

def writeBack (before after : FileSystem) (l : Location) : IO Unit := do
  if after.node l ≠ before.node l then
    match after.node l with
    | some .directory => IO.FS.createDir (pathText l)
    | some (.file content) => IO.FS.writeBinFile (pathText l) ⟨(content.map UInt8.ofNat).toArray⟩
    | none => pure ()

def said : Said → String
  | .line s => s
  | .record r => r.line

def run (args : List String) : IO UInt32 := do
  let environment ← IO.getEnv "QKD_CONFIG"
  let working := location (← IO.currentDir).toString
  let places := ((CommandLine.parse? environment args).map (placesOf working)).getD []
  let files ← snapshot working places
  let o := CommandLine.respond Programs.machine environment args files
  for l in places do
    writeBack files o.files l
  for s in o.said do
    IO.println (said s)
  IO.eprint o.stderr
  return o.code.toUInt32

end PhaseCert.Main

def main (args : List String) : IO UInt32 := PhaseCert.Main.run args
