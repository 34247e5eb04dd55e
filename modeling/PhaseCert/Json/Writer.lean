/-
  PhaseCert.Json.Writer — a tree as JSON text.

  The compact form has no white space between tokens. The indented form puts each item and
  entry on a line of its own, two blanks deeper than its container, and a blank after each
  colon; an empty container stays on its line. Entries are written in the order they are in.
  Quotes, backslashes and control characters are escaped, nothing else is.
-/
import PhaseCert.Decimal.Layout
import PhaseCert.Tree

namespace PhaseCert.Json

def hexDigits4 (n : Nat) : List Char :=
  let ds := Nat.toDigits 16 n
  List.replicate (4 - ds.length) '0' ++ ds

def escapedChar (c : Char) : List Char :=
  match c with
  | '"' => ['\\', '"']
  | '\\' => ['\\', '\\']
  | '\n' => ['\\', 'n']
  | '\r' => ['\\', 'r']
  | '\t' => ['\\', 't']
  | '\x08' => ['\\', 'b']
  | '\x0c' => ['\\', 'f']
  | c => if c.toNat < 0x20 then '\\' :: 'u' :: hexDigits4 c.toNat else [c]

def quotedText (s : String) : List Char :=
  '"' :: (s.toList.flatMap escapedChar ++ ['"'])

/-- The depth of a line in the indented form; `none` is the compact form. -/
abbrev Depth := Option Nat

def Depth.deeper : Depth → Depth
  | none => none
  | some d => some (d + 1)

/-- The break before a line of this depth. -/
def lineBreak : Depth → List Char
  | none => []
  | some d => '\n' :: List.replicate (2 * d) ' '

def colon : Depth → List Char
  | none => [':']
  | some _ => [':', ' ']

def intText (n : Int) : List Char := (toString n).toList

def floatText (x : Binary64) : List Char := (NumberLayout.json.text x).toList

mutual

def write (d : Depth) : Tree → List Char
  | .null => ['n', 'u', 'l', 'l']
  | .bool true => ['t', 'r', 'u', 'e']
  | .bool false => ['f', 'a', 'l', 's', 'e']
  | .int n => intText n.val
  | .float x => floatText x.val
  | .text s => quotedText s
  | .seq [] => ['[', ']']
  | .seq (t :: rest) => '[' :: (writeItems d.deeper (t :: rest) ++ lineBreak d ++ [']'])
  | .map [] => ['\x7b', '\x7d']
  | .map (e :: rest) => '\x7b' :: (writeEntries d.deeper (e :: rest) ++ lineBreak d ++ ['\x7d'])

/-- Items, each on its line, with commas between them. -/
def writeItems (d : Depth) : List Tree → List Char
  | [] => []
  | [t] => lineBreak d ++ write d t
  | t :: rest => lineBreak d ++ write d t ++ ',' :: writeItems d rest

/-- Entries, each on its line, with commas between them. -/
def writeEntries (d : Depth) : List (String × Tree) → List Char
  | [] => []
  | [(k, t)] => lineBreak d ++ quotedText k ++ colon d ++ write d t
  | (k, t) :: rest =>
    lineBreak d ++ quotedText k ++ colon d ++ write d t ++ ',' :: writeEntries d rest

end

def compact (t : Tree) : String := String.ofList (write none t)

def indented (t : Tree) : String := String.ofList (write (some 0) t)

end PhaseCert.Json
