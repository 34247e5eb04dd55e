/-
  PhaseCert.Yaml.Cursor — the characters of a YAML stream and places among them.

  A line ends in a line feed or in one of the two separator characters; the other line ends
  are turned into line feeds before anything is read.
-/

namespace PhaseCert.Yaml

/-- May the character stand in a stream at all? -/
def isAllowed (c : Char) : Bool :=
  let n := c.toNat
  n = 0x9 || n = 0xa || n = 0xd || (0x20 ≤ n && n ≤ 0x7e) || n = 0x85
    || (0xa0 ≤ n && n ≤ 0xfffd) || 0x10000 ≤ n

def isBreak (c : Char) : Bool := c = '\n' || c = '\u2028' || c = '\u2029'

def isSpace (c : Char) : Bool := c = ' ' || c = '\t'

/-- The characters of names: of anchors, of directives and of tag handles. -/
def isNameChar (c : Char) : Bool := c.isAlphanum || c = '_' || c = '-'

/-- Every line end that is not a separator character as a single line feed. -/
def singleBreaks : List Char → List Char
  | '\r' :: '\n' :: cs => '\n' :: singleBreaks cs
  | c :: cs => (if c = '\r' ∨ c = '\u0085' then '\n' else c) :: singleBreaks cs
  | [] => []

/-- Does a blank, a line end or the end of the stream come next? -/
def atGap : List Char → Bool
  | [] => true
  | c :: _ => isSpace c || isBreak c

/-- Does a mark between documents come next, three times the same character? -/
def atMark (c : Char) : List Char → Bool
  | a :: b :: d :: cs => a = c && b = c && d = c && atGap cs
  | _ => false

def atDocumentMark (cs : List Char) : Bool := atMark '-' cs || atMark '.' cs

/-- A place in the stream. -/
structure Spot where
  line : Nat
  column : Nat
  deriving DecidableEq

def Spot.after (p : Spot) (c : Char) : Spot :=
  if isBreak c then ⟨p.line + 1, 0⟩ else ⟨p.line, p.column + 1⟩

/-- What is still to be read, and where it begins. -/
structure Cursor where
  rest : List Char
  spot : Spot

/-- Further on in the same line, where only `rest` is still to be read. -/
def Cursor.onTo (cur : Cursor) (rest : List Char) : Cursor :=
  ⟨rest, cur.spot.line, cur.spot.column + (cur.rest.length - rest.length)⟩

end PhaseCert.Yaml
