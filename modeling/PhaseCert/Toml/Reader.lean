/-
  PhaseCert.Toml.Reader — a tree from TOML text.

  A document is a list of lines: settings and headers, with blank lines and comments
  between them.
-/
import PhaseCert.Toml.Value

namespace PhaseCert.Toml

inductive Line where
  | setting (s : Setting)
  | header (h : Header)

/-- Settings belong to the header before them. -/
def Document.ofLines (lines : List Line) : Document :=
  lines.foldr
    (fun line (d : Document) =>
      match line with
      | .setting s => ⟨s :: d.settings, d.sections⟩
      | .header h => ⟨[], ⟨h, d.settings⟩ :: d.sections⟩)
    ⟨[], []⟩

def line? : List Char → Option (Line × List Char)
  | '[' :: '[' :: cs => do
    let (path, cs) ← keyPath? maxParts cs
    return (.header (.row path), ← mark? ']' (← mark? ']' cs))
  | '[' :: cs => do
    let (path, cs) ← keyPath? maxParts cs
    return (.header (.table path), ← mark? ']' cs)
  | cs => (setting? (value? maxDepth) cs).map fun (s, rest) => (.setting s, rest)

def lines? : (fuel : Nat) → List Char → Option (List Line)
  | 0, _ => none
  | fuel + 1, cs =>
    match skipLines false cs with
    | [] => some []
    | cs => do
      let (line, cs) ← line? cs
      let rest ← lines? fuel (← lineEnd? cs)
      return line :: rest

/-- Line ends of two characters as single line feeds. -/
def singleLineEnds : List Char → List Char
  | '\r' :: '\n' :: cs => '\n' :: singleLineEnds cs
  | c :: cs => c :: singleLineEnds cs
  | [] => []

/-- Without a byte order mark in front. -/
def skipMark : List Char → List Char
  | '\uFEFF' :: cs => cs
  | cs => cs

def read? (source : String) : Option Tree := do
  let cs := skipMark (singleLineEnds source.toList)
  (Document.ofLines (← lines? (cs.length + 1) cs)).toTree?

end PhaseCert.Toml
