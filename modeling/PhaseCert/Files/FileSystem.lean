/-
  PhaseCert.Files.FileSystem — files and directories.

  A file system says what stands at each place, a place being the names from the root down,
  and which directory relative paths start from. A path is followed name by name: each name
  before the last has to be a directory, a point stays, two points go up. Nothing here is a
  link, and nobody's access is restricted.
-/
import PhaseCert.Files.Path
import PhaseCert.Text.Utf8

namespace PhaseCert

/-- The bytes of a file. -/
abbrev Bytes := List Nat

inductive FileNode where
  | file (content : Bytes)
  | directory
  deriving DecidableEq

inductive FileError where
  | notFound
  | permissionDenied
  | exists
  | notDirectory
  | isDirectory
  | nameTooLong
  | zeroByte
  | notText
  deriving DecidableEq

def FileError.message : FileError → String
  | .notFound => "No such file or directory (os error 2)"
  | .permissionDenied => "Permission denied (os error 13)"
  | .exists => "File exists (os error 17)"
  | .notDirectory => "Not a directory (os error 20)"
  | .isDirectory => "Is a directory (os error 21)"
  | .nameTooLong => "File name too long (os error 36)"
  | .zeroByte => "file name contained an unexpected NUL byte"
  | .notText => "stream did not contain valid UTF-8"

/-- The names from the root down. -/
abbrev Location := List String

structure FileSystem where
  node : Location → Option FileNode
  working : Location

namespace FileSystem

abbrev Result (α : Type) := Except FileError α

/-- The most bytes of one name, and of a path with the byte that ends it. -/
def maxName : Nat := 255
def maxPath : Nat := 4096

def isDirectoryAt (fs : FileSystem) (here : Location) : Bool := fs.node here = some .directory

/-- One name down, up or on the spot. -/
def step (fs : FileSystem) (here : Location) (name : String) : Result Location :=
  if ¬fs.isDirectoryAt here then .error .notDirectory
  else if name = "" ∨ name = "." then .ok here
  else if name = ".." then .ok here.dropLast
  else if maxName < name.utf8ByteSize then .error .nameTooLong
  else if (fs.node (here ++ [name])).isSome then .ok (here ++ [name])
  else .error .notFound

def walk (fs : FileSystem) (start : Location) (names : List String) : Result Location :=
  names.foldlM fs.step start

def start (fs : FileSystem) (p : Path) : Location := if p.isAbsolute then [] else fs.working

/-- What no path may be. -/
def check (p : Path) : Result Unit :=
  if p.text.toList.contains '\x00' then .error .zeroByte
  else if p.text = "" then .error .notFound
  else if maxPath ≤ p.text.utf8ByteSize then .error .nameTooLong
  else .ok ()

/-- Where something stands. -/
def locate (fs : FileSystem) (p : Path) : Result Location := do
  check p
  fs.walk (fs.start p) p.pieces

def find? (fs : FileSystem) (p : Path) : Option FileNode :=
  match fs.locate p with
  | .ok l => fs.node l
  | .error _ => none

def has (fs : FileSystem) (p : Path) : Bool := (fs.find? p).isSome

def isDirectory (fs : FileSystem) (p : Path) : Bool := fs.find? p = some .directory

def isFile (fs : FileSystem) (p : Path) : Bool :=
  match fs.find? p with
  | some (.file _) => true
  | _ => false

def read (fs : FileSystem) (p : Path) : Result Bytes := do
  match fs.node (← fs.locate p) with
  | some (.file content) => .ok content
  | some .directory => .error .isDirectory
  | none => .error .notFound

/-- The text of a file, which has to be well-formed UTF-8. -/
def readText (fs : FileSystem) (p : Path) : Result String := do
  match Utf8.strict? (← fs.read p) with
  | some s => .ok s
  | none => .error .notText

def set (fs : FileSystem) (l : Location) (n : FileNode) : FileSystem :=
  { fs with node := fun m => if m = l then some n else fs.node m }

/-- What a path names in a directory: a place for a name, which may be taken already, or the
    directory itself or the one above it. -/
inductive Slot where
  | name (l : Location) (slashes : Bool)
  | directory

/-- The pieces without empty ones at the end, the last of them apart, and whether there were
    empty ones. -/
def splitLast (pieces : List String) : List String × String × Bool :=
  match pieces.reverse.dropWhile (· = "") with
  | [] => ([], "", true)
  | last :: before => (before.reverse, last, pieces.getLast? = some "")

/-- The slot that a path to something new names: everything before its last name is there. -/
def slot (fs : FileSystem) (p : Path) : Result Slot := do
  check p
  let (before, last, slashes) := splitLast p.pieces
  let parent ← fs.walk (fs.start p) before
  if ¬fs.isDirectoryAt parent then .error .notDirectory
  else if last = "" ∨ last = "." ∨ last = ".." then .ok .directory
  else if maxName < last.utf8ByteSize then .error .nameTooLong
  else .ok (.name (parent ++ [last]) slashes)

/-- Writes a file anew, in a directory that is there. -/
def write (fs : FileSystem) (p : Path) (content : Bytes) : Result FileSystem := do
  match ← fs.slot p with
  | .directory => .error .isDirectory
  | .name l slashes =>
    if slashes ∨ fs.isDirectoryAt l then .error .isDirectory else .ok (fs.set l (.file content))

def makeDirectory (fs : FileSystem) (p : Path) : Result FileSystem := do
  match ← fs.slot p with
  | .directory => .error .exists
  | .name l _ => if (fs.node l).isSome then .error .exists else .ok (fs.set l .directory)

/-- Makes a directory and those above it that are missing, at most `fuel` of them. A
    directory that is there already is fine. -/
def makeMissing (fs : FileSystem) : (fuel : Nat) → Path → FileSystem × Option FileError
  | 0, _ => (fs, none)
  | fuel + 1, p =>
    if p.text = "" then (fs, none)
    else
      let attempt (fs : FileSystem) : FileSystem × Option FileError :=
        match fs.makeDirectory p with
        | .ok fs => (fs, none)
        | .error e => if fs.isDirectory p then (fs, none) else (fs, some e)
      match fs.makeDirectory p with
      | .error .notFound =>
        match p.parent? with
        | none => (fs, some .notFound)
        | some q =>
          match fs.makeMissing fuel q with
          | (fs, none) => attempt fs
          | (fs, some e) => (fs, some e)
      | _ => attempt fs

/-- A path has no more directories above it than characters. -/
def makeDirectories (fs : FileSystem) (p : Path) : FileSystem × Option FileError :=
  fs.makeMissing (p.text.length + 1) p

/-- What failed in writing a file along with the directories above it. -/
structure WriteFailure where
  /-- The path that could not be made: a directory's, or the file's. -/
  path : Path
  ofDirectory : Bool
  error : FileError
  deriving DecidableEq

/-- Writes a file, its directories first. Directories that were made stay, even where the
    writing fails. -/
def writeWithin (fs : FileSystem) (p : Path) (content : Bytes) :
    FileSystem × Option WriteFailure :=
  let (fs, failed) := match p.properParent? with
    | none => (fs, none)
    | some q =>
      let (fs, e) := fs.makeDirectories q
      (fs, e.map fun e => ⟨q, true, e⟩)
  match failed with
  | some f => (fs, some f)
  | none =>
    match fs.write p content with
    | .ok fs => (fs, none)
    | .error e => (fs, some ⟨p, false, e⟩)

end FileSystem

end PhaseCert
