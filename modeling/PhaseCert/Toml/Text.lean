/-
  PhaseCert.Toml.Text — blanks, comments, strings and keys of TOML.

  A reader takes characters and gives a value with the characters after it. Line ends are
  single line feeds: `Toml.read?` turns the two-character ends into them first.
-/
import PhaseCert.Text.Hex

namespace PhaseCert.Toml

/-- The blanks within a line. -/
def isSpace (c : Char) : Bool := c = ' ' || c = '\t'

def skipSpace (cs : List Char) : List Char := cs.dropWhile isSpace

/-- The characters that may stand in a line: all but control characters, and tabs. -/
def isInLine (c : Char) : Bool := c = '\t' || (0x20 ≤ c.toNat && c.toNat ≠ 0x7f)

def skipComment : List Char → List Char
  | '#' :: cs => cs.dropWhile isInLine
  | cs => cs

/-- Past blanks, a comment, and the end of the line or of the text. -/
def lineEnd? (cs : List Char) : Option (List Char) :=
  match skipComment (skipSpace cs) with
  | [] => some []
  | '\n' :: cs => some cs
  | _ => none

/-- Past blanks, line ends and comments; `true` within a comment. -/
def skipLines : Bool → List Char → List Char
  | _, [] => []
  | inComment, c :: cs =>
    if c = '\n' then skipLines false cs
    else if inComment then
      if isInLine c then skipLines true cs else c :: cs
    else if c = '#' then skipLines true cs
    else if isSpace c then skipLines false cs
    else c :: cs

/-- Where in a string between double quotes a reader is. -/
inductive Within where
  | text
  /-- After a backslash. -/
  | escape
  /-- In the digits of a character's number: how many are to come, and the number so far. -/
  | code (left : Nat) (soFar : Nat)
  /-- After a backslash and blanks, where a line end has to follow. -/
  | breaking
  /-- After such a line end, where blanks and further line ends are left out. -/
  | trimming
  deriving DecidableEq

/-- What a backslash and one more character stand for. -/
def escaped? : Char → Option Char
  | 'b' => some '\x08'
  | 'f' => some '\x0c'
  | 'n' => some '\n'
  | 'r' => some '\r'
  | 't' => some '\t'
  | '"' => some '"'
  | '\\' => some '\\'
  | _ => none

/-- How many digits the number has that follows a backslash and this character. -/
def codeLength? : Char → Option Nat
  | 'u' => some 4
  | 'U' => some 8
  | _ => none

/-- A string of several lines ends with three quotes; of a longer run up to two belong to
    the text. -/
def closing? (quote : Char) : List Char → Option (List Char × List Char)
  | a :: b :: c :: d :: e :: cs =>
    if a = quote ∧ b = quote ∧ c = quote then
      if d = quote then
        if e = quote then some ([quote, quote], cs) else some ([quote], e :: cs)
      else some ([], d :: e :: cs)
    else none
  | [a, b, c, d] =>
    if a = quote ∧ b = quote ∧ c = quote then
      if d = quote then some ([quote], []) else some ([], [d])
    else none
  | [a, b, c] => if a = quote ∧ b = quote ∧ c = quote then some ([], []) else none
  | _ => none

def push (c : Char) (r : Option (List Char × List Char)) : Option (List Char × List Char) :=
  r.map fun (text, rest) => (c :: text, rest)

/-- A string between double quotes, from after the opening one; `lines` says whether it may
    have several lines. -/
def quotedText (lines : Bool) : Within → List Char → Option (List Char × List Char)
  | _, [] => none
  | .escape, c :: cs =>
    match escaped? c with
    | some e => push e (quotedText lines .text cs)
    | none =>
      match codeLength? c with
      | some n => quotedText lines (.code n 0) cs
      | none =>
        if lines ∧ c = '\n' then quotedText lines .trimming cs
        else if lines ∧ isSpace c then quotedText lines .breaking cs
        else none
  | .code left soFar, c :: cs =>
    match hexValue? c with
    | none => none
    | some d =>
      if left ≤ 1 then
        match charOfCode? (16 * soFar + d) with
        | some e => push e (quotedText lines .text cs)
        | none => none
      else quotedText lines (.code (left - 1) (16 * soFar + d)) cs
  | .breaking, c :: cs =>
    if c = '\n' then quotedText lines .trimming cs
    else if isSpace c then quotedText lines .breaking cs
    else none
  | state, c :: cs =>
    if state = .trimming ∧ (c = '\n' ∨ isSpace c) then quotedText lines .trimming cs
    else if c = '"' then
      if lines then
        match closing? '"' (c :: cs) with
        | some r => some r
        | none => push c (quotedText lines .text cs)
      else some ([], cs)
    else if c = '\\' then quotedText lines .escape cs
    else if isInLine c ∨ (lines ∧ c = '\n') then push c (quotedText lines .text cs)
    else none

/-- A string between single quotes, from after the opening one. -/
def literalText (lines : Bool) : List Char → Option (List Char × List Char)
  | [] => none
  | c :: cs =>
    if c = '\'' then
      if lines then
        match closing? '\'' (c :: cs) with
        | some r => some r
        | none => push c (literalText lines cs)
      else some ([], cs)
    else if isInLine c ∨ (lines ∧ c = '\n') then push c (literalText lines cs)
    else none

/-- A line end right after the opening quotes is left out. -/
def afterOpening : List Char → List Char
  | '\n' :: cs => cs
  | cs => cs

def asString (r : Option (List Char × List Char)) : Option (String × List Char) :=
  r.map fun (text, rest) => (String.ofList text, rest)

/-- A string of any of the four kinds. -/
def string? : List Char → Option (String × List Char)
  | '"' :: '"' :: '"' :: cs => asString (quotedText true .text (afterOpening cs))
  | '"' :: cs => asString (quotedText false .text cs)
  | '\'' :: '\'' :: '\'' :: cs => asString (literalText true (afterOpening cs))
  | '\'' :: cs => asString (literalText false cs)
  | _ => none

/-- The characters of a key without quotes. -/
def isBare (c : Char) : Bool := c.isAlphanum || c = '-' || c = '_'

def simpleKey? : List Char → Option (String × List Char)
  | '"' :: cs => asString (quotedText false .text cs)
  | '\'' :: cs => asString (literalText false cs)
  | cs =>
    let k := cs.takeWhile isBare
    if k = [] then none else some (String.ofList k, cs.dropWhile isBare)

/-- A key with the tables it leads through. -/
structure KeyPath where
  tables : List String
  key : String

/-- Simple keys joined by points, at most `n` of them. -/
def keyPath? : (n : Nat) → List Char → Option (KeyPath × List Char)
  | 0, _ => none
  | n + 1, cs => do
    let (k, cs) ← simpleKey? (skipSpace cs)
    match skipSpace cs with
    | '.' :: cs =>
      let (path, cs) ← keyPath? n cs
      return (⟨k :: path.tables, path.key⟩, cs)
    | cs => return (⟨[], k⟩, cs)

/-- Keys have at most this many parts. -/
def maxParts : Nat := 79

end PhaseCert.Toml
