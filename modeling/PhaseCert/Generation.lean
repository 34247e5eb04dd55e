/-
  PhaseCert.Generation — writing certificates and proof instances to files.

  Directories are made as they are needed, and a file that is there is written anew.
-/
import PhaseCert.Files.FileSystem
import PhaseCert.Instance

namespace PhaseCert

namespace Certificate

/-- A certificate's JSON in a file; the text has no line end after it. -/
def writeTo (fs : FileSystem) (p : Path) (indented : Bool) (c : Certificate) :
    FileSystem × Option FileSystem.WriteFailure :=
  fs.writeWithin p (Utf8.encode (c.json indented))

/-- What a certificate that cannot be written leads to. -/
def exportMessage (f : FileSystem.WriteFailure) : String :=
  "I/O error: Failed to " ++ (if f.ofDirectory then "create " else "write ") ++ f.path.text
    ++ ": " ++ f.error.message

end Certificate

inductive GenerationError where
  | invalid (fault : Fault)
  | notFinite (e : NotFinite)
  | unwritable (f : FileSystem.WriteFailure)
  deriving DecidableEq

namespace GenerationError

def message : GenerationError → String
  | .invalid fault => fault.message
  | .notFinite e => e.message
  | .unwritable f => "Failed to write " ++ f.path.text ++ ": " ++ f.error.message

/-- The message with what is behind it. -/
def fullMessage : GenerationError → String
  | .unwritable f => (unwritable f).message ++ ": " ++ f.error.message
  | e => e.message

end GenerationError

namespace Instance

def defaultPath : Path := ⟨"coq/Generated/b92_inst.v"⟩

/-- The text of the instance for a protocol and a certificate. -/
def source (p : Protocol) (c : Certificate) : Except GenerationError String := do
  let v ← (values p c).mapError .invalid
  (render v).mapError .notFinite

/-- Writes a text as an instance. -/
def writeTo (fs : FileSystem) (path : Path) (text : String) :
    FileSystem × Option GenerationError :=
  let (fs, failed) := fs.writeWithin path (Utf8.encode text)
  (fs, failed.map .unwritable)

/-- Writes the instance for a protocol and a certificate. Nothing is written for one that has
    no text. -/
def generate (fs : FileSystem) (path : Path) (p : Protocol) (c : Certificate) :
    FileSystem × Option GenerationError :=
  match source p c with
  | .ok text => writeTo fs path text
  | .error e => (fs, some e)

end Instance

end PhaseCert
