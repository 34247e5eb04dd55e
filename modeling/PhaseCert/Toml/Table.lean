/-
  PhaseCert.Toml.Table — how keys and headers build up a table.

  A table can be opened once by a header, and tables on the way to it come into being
  without being opened, so that a header can still open them later. A key with points makes
  tables too, but only further keys with points of the same body can add to those. Rows are
  tables under one key: a header with double brackets adds one, and a way through the key
  leads into the last of them. A value is closed: nothing can be added to it.
-/
import PhaseCert.Toml.Text
import PhaseCert.Tree

namespace PhaseCert.Toml

/-- How a table came into being. -/
inductive Origin where
  /-- A header, a row, or the document itself. -/
  | opened
  /-- On the way of a header. -/
  | passed
  /-- By a key with points. -/
  | dotted
  deriving DecidableEq

inductive Item where
  | value (t : Tree)
  | table (origin : Origin) (body : List (String × Item))
  /-- The rows, the last one first. -/
  | rows (bodies : List (List (String × Item)))

abbrev Body := List (String × Item)

mutual

def Item.toTree : Item → Tree
  | .value t => t
  | .table _ body => .map (entriesToTree body)
  | .rows bodies => .seq (rowsToTree bodies).reverse

def entriesToTree : List (String × Item) → List (String × Tree)
  | [] => []
  | (k, item) :: rest => (k, item.toTree) :: entriesToTree rest

def rowsToTree : List (List (String × Item)) → List Tree
  | [] => []
  | body :: rest => .map (entriesToTree body) :: rowsToTree rest

end

/-- Changes the table at the end of a way, which is through keys with points or not. What is
    missing on the way comes into being. -/
def alter (points : Bool) (change : Origin → Body → Option Body) :
    List String → Origin → Body → Option Body
  | [], origin, body => change origin body
  | k :: way, _, body =>
    match Entries.get? k body with
    | none =>
      let made := if points then Origin.dotted else .passed
      (alter points change way made []).map fun inner => Entries.insert k (.table made inner) body
    | some (.table origin inner) =>
      if points ∧ origin = .opened then none
      else
        (alter points change way origin inner).map fun inner =>
          Entries.insert k (.table origin inner) body
    | some (.rows (last :: earlier)) =>
      (alter points change way .opened last).map fun last =>
        Entries.insert k (.rows (last :: earlier)) body
    | some (.rows []) => none
    | some (.value _) => none

/-- Writes a value under a new key. A key with points ends in a table that such keys made,
    and a plain key in one that they did not make. -/
def put (path : KeyPath) (t : Tree) (body : Body) : Option Body :=
  alter true
    (fun origin inner =>
      if (origin = .dotted ↔ path.tables = []) ∨ (Entries.get? path.key inner).isSome then none
      else some (Entries.insert path.key (.value t) inner))
    path.tables .opened body

abbrev Setting := KeyPath × Tree

def putAll (settings : List Setting) (body : Body) : Option Body :=
  settings.foldlM (fun body s => put s.1 s.2 body) body

/-- The table of an inline list of settings, as a closed value. -/
def inlineTable? (settings : List Setting) : Option Tree :=
  (putAll settings []).map fun body => .map (entriesToTree body)

inductive Header where
  | table (path : KeyPath)
  | row (path : KeyPath)

def Header.path : Header → KeyPath
  | .table p => p
  | .row p => p

/-- A header with the settings under it. -/
structure Section where
  header : Header
  settings : List Setting

/-- What a section makes of the item under its key: a table that no header has opened yet is
    opened and keeps what is in it, and rows get one more. -/
def Section.item? (s : Section) (old : Option Item) : Option Item :=
  match s.header, old with
  | .table _, none => (putAll s.settings []).map (.table .opened)
  | .table _, some (.table .passed body) => (putAll s.settings body).map (.table .opened)
  | .table _, some _ => none
  | .row _, none => (putAll s.settings []).map fun body => .rows [body]
  | .row _, some (.rows bodies) => (putAll s.settings []).map fun body => .rows (body :: bodies)
  | .row _, some _ => none

def Section.addTo (s : Section) (root : Body) : Option Body :=
  let path := s.header.path
  alter false
    (fun _ body => (s.item? (Entries.get? path.key body)).map fun item =>
      Entries.insert path.key item body)
    path.tables .opened root

/-- A document: the settings before the first header, and the sections. -/
structure Document where
  settings : List Setting
  sections : List Section

def Document.toTree? (d : Document) : Option Tree := do
  let top ← putAll d.settings []
  let root ← d.sections.foldlM (fun root s => s.addTo root) top
  return .map (entriesToTree root)

end PhaseCert.Toml
