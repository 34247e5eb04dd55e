/-
  PhaseCert.Files.Path — paths as texts.

  Names are separated by slashes. Repeated slashes, slashes at the end, and single points
  that are not in front stand for nothing. The functions here look at the text alone and at
  no file system.
-/

namespace PhaseCert

structure Path where
  text : String
  deriving DecidableEq

namespace Path

/-- The pieces between slashes. -/
def splitSlash : List Char → List (List Char)
  | [] => [[]]
  | c :: cs =>
    if c = '/' then [] :: splitSlash cs
    else
      match splitSlash cs with
      | piece :: rest => (c :: piece) :: rest
      | [] => [[c]]

def pieces (p : Path) : List String := (splitSlash p.text.toList).map String.ofList

def isAbsolute (p : Path) : Bool := p.text.toList.head? = some '/'

/-- Of a reversed text, drops slashes and idle points at its end. -/
def dropIdle : List Char → List Char
  | '/' :: cs => dropIdle cs
  | '.' :: '/' :: cs => dropIdle cs
  | cs => cs

/-- The text without what stands for nothing at its end, reversed. -/
def trimmed (p : Path) : List Char := dropIdle p.text.toList.reverse

/-- The last component, which may be one point or two. -/
def last (p : Path) : String := String.ofList (p.trimmed.takeWhile (· ≠ '/')).reverse

/-- The last component, if it is a name. -/
def fileName? (p : Path) : Option String :=
  if p.last = "" ∨ p.last = "." ∨ p.last = ".." then none else some p.last

/-- The path without its last component; the root and the empty path have none. -/
def parent? (p : Path) : Option Path :=
  if p.trimmed = [] then none
  else
    let rest := dropIdle (p.trimmed.dropWhile (· ≠ '/'))
    if rest = [] ∧ p.isAbsolute then some ⟨"/"⟩ else some ⟨String.ofList rest.reverse⟩

/-- The parent, where it is not the empty path. -/
def properParent? (p : Path) : Option Path := p.parent?.filter fun q => q.text ≠ ""

/-- What follows the last point of the name, if something other than the start precedes it. -/
def extension? (p : Path) : Option String :=
  match p.fileName? with
  | none => none
  | some name =>
    let cs := name.toList.reverse
    match cs.dropWhile (· ≠ '.') with
    | '.' :: _ :: _ => some (String.ofList (cs.takeWhile (· ≠ '.')).reverse)
    | _ => none

/-- A name below this path. -/
def join (p : Path) (name : String) : Path :=
  if p.text = "" ∨ p.text.toList.getLast? = some '/' then ⟨p.text ++ name⟩
  else ⟨p.text ++ "/" ++ name⟩

end Path

end PhaseCert
