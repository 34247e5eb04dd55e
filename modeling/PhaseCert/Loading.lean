/-
  PhaseCert.Loading — protocols from documents and files.

  A document is TOML or YAML, which the extension of its file tells. Once it is a tree the
  two make no difference.
-/
import PhaseCert.Files.FileSystem
import PhaseCert.Protocol.Reading
import PhaseCert.Text.LowerCase
import PhaseCert.Toml.Reader
import PhaseCert.Yaml.Reader

namespace PhaseCert

inductive DocumentFormat where
  | toml
  | yaml
  deriving DecidableEq

inductive LoadError where
  | notFound (path : Path)
  /-- The extension is empty where there is none. -/
  | unsupported (path : Path) (extension : String)
  | malformed (format : DocumentFormat)
  | invalid (fault : Fault)
  | unreadable (path : Path) (error : FileError)
  deriving DecidableEq

namespace DocumentFormat

def name : DocumentFormat → String
  | .toml => "TOML"
  | .yaml => "YAML"

/-- The format that an extension stands for, in any letter case. -/
def ofExtension? (extension : String) : Option DocumentFormat :=
  let e := lowerCase extension
  if e = "toml" then some .toml
  else if e = "yaml" ∨ e = "yml" then some .yaml
  else none

def ofPath (p : Path) : Except LoadError DocumentFormat :=
  let extension := p.extension?.getD ""
  match ofExtension? extension with
  | some f => .ok f
  | none => .error (.unsupported p extension)

def read? : DocumentFormat → String → Option Tree
  | .toml => Toml.read?
  | .yaml => Yaml.read?

end DocumentFormat

namespace LoadError

def message : LoadError → String
  | .notFound p => "Config file not found: " ++ p.text
  | .unsupported p extension =>
    "Unsupported config format '" ++ extension ++ "' for " ++ p.text
      ++ " (expected .toml, .yaml or .yml)"
  | .malformed format => "Failed to parse " ++ format.name ++ " document: malformed syntax"
  | .invalid fault => fault.message
  | .unreadable p e => "Failed to read " ++ p.text ++ ": " ++ e.message

/-- The message with what is behind it. -/
def fullMessage : LoadError → String
  | .unreadable p e => (unreadable p e).message ++ ": " ++ e.message
  | e => e.message

end LoadError

namespace Protocol

def parseTree (format : DocumentFormat) (source : String) : Except LoadError Tree :=
  match format.read? source with
  | some t => .ok t
  | none => .error (.malformed format)

def ofDocument (t : Tree) : Except LoadError Protocol := (Protocol.ofTree t).mapError .invalid

def ofText (format : DocumentFormat) (source : String) : Except LoadError Protocol := do
  ofDocument (← parseTree format source)

/-- The format of a file that has to be there. -/
def formatOf (fs : FileSystem) (p : Path) : Except LoadError DocumentFormat :=
  if fs.has p then DocumentFormat.ofPath p else .error (.notFound p)

def loadAs (format : DocumentFormat) (fs : FileSystem) (p : Path) : Except LoadError Protocol := do
  let source ← (fs.readText p).mapError (.unreadable p)
  ofText format source

def load (fs : FileSystem) (p : Path) : Except LoadError Protocol := do
  loadAs (← formatOf fs p) fs p

end Protocol

end PhaseCert
