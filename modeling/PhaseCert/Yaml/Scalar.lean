/-
  PhaseCert.Yaml.Scalar — the texts of scalars.

  Within a scalar that is quoted or plain, a line end and the blanks around it become one
  blank, and of several line ends all but the first are kept. A block scalar keeps its lines
  (`literal`) or folds them in the same way, except beside lines that begin with a blank.
-/
import PhaseCert.Text.Hex
import PhaseCert.Yaml.Cursor

namespace PhaseCert.Yaml

/-- What stands between two pieces of text. -/
inductive Gap where
  | none
  | blanks (cs : List Char)
  /-- Line ends; the first is not there if it was escaped. -/
  | breaks (first : Option Char) (more : List Char)
  deriving DecidableEq

namespace Gap

/-- Blanks beside a line end do not count. -/
def add (g : Gap) (c : Char) : Gap :=
  if isBreak c then
    match g with
    | .breaks first more => .breaks first (more ++ [c])
    | _ => .breaks (some c) []
  else
    match g with
    | .none => .blanks [c]
    | .blanks cs => .blanks (cs ++ [c])
    | .breaks first more => .breaks first more

def hasBreak : Gap → Bool
  | .breaks _ _ => true
  | _ => false

/-- What the gap leaves in the text. -/
def text : Gap → List Char
  | .none => []
  | .blanks cs => cs
  | .breaks (some '\n') [] => [' ']
  | .breaks (some '\n') more => more
  | .breaks first more => first.toList ++ more

end Gap

def prepend (cs : List Char) (r : Option (List Char × Cursor)) : Option (List Char × Cursor) :=
  r.map fun (text, cur) => (cs ++ text, cur)

/-- Where in a quoted scalar a reader is. -/
inductive Within where
  | text (gap : Gap)
  /-- After a backslash. -/
  | escape
  /-- In the digits of a character's number. -/
  | code (left : Nat) (soFar : Nat)
  /-- After a single quote, which ends the scalar unless a second one follows. -/
  | quote

/-- What a backslash and one more character stand for. -/
def escaped? : Char → Option Char
  | '0' => some '\x00'
  | 'a' => some '\x07'
  | 'b' => some '\x08'
  | 't' => some '\t'
  | '\t' => some '\t'
  | 'n' => some '\n'
  | 'v' => some '\x0b'
  | 'f' => some '\x0c'
  | 'r' => some '\r'
  | 'e' => some '\x1b'
  | ' ' => some ' '
  | '"' => some '"'
  | '/' => some '/'
  | '\\' => some '\\'
  | 'N' => some '\u0085'
  | '_' => some '\u00a0'
  | 'L' => some '\u2028'
  | 'P' => some '\u2029'
  | _ => none

/-- How many digits the number has that follows a backslash and this character. -/
def codeLength? : Char → Option Nat
  | 'x' => some 2
  | 'u' => some 4
  | 'U' => some 8
  | _ => none

/-- A quoted scalar, from after its opening quote. No mark between documents may begin one of
    its lines. -/
def quotedText (double : Bool) : Within → Spot → List Char → Option (List Char × Cursor)
  | .quote, p, [] => some ([], ⟨[], p⟩)
  | _, _, [] => none
  | .text gap, p, c :: cs =>
    if isSpace c ∨ isBreak c then quotedText double (.text (gap.add c)) (p.after c) cs
    else if p.column = 0 ∧ atDocumentMark (c :: cs) then none
    else if double ∧ c = '"' then some (gap.text, ⟨cs, p.after c⟩)
    else if double ∧ c = '\\' then prepend gap.text (quotedText double .escape (p.after c) cs)
    else if ¬double ∧ c = '\'' then prepend gap.text (quotedText double .quote (p.after c) cs)
    else prepend (gap.text ++ [c]) (quotedText double (.text .none) (p.after c) cs)
  | .escape, p, c :: cs =>
    if isBreak c then quotedText double (.text (.breaks none [])) (p.after c) cs
    else
      match escaped? c with
      | some e => prepend [e] (quotedText double (.text .none) (p.after c) cs)
      | none =>
        match codeLength? c with
        | some n => quotedText double (.code n 0) (p.after c) cs
        | none => none
  | .code left soFar, p, c :: cs =>
    match hexValue? c with
    | none => none
    | some d =>
      if left ≤ 1 then
        match charOfCode? (16 * soFar + d) with
        | some e => prepend [e] (quotedText double (.text .none) (p.after c) cs)
        | none => none
      else quotedText double (.code (left - 1) (16 * soFar + d)) (p.after c) cs
  | .quote, p, c :: cs =>
    if c = '\'' then prepend ['\''] (quotedText double (.text .none) (p.after c) cs)
    else some ([], ⟨c :: cs, p⟩)

def isFlowMark (c : Char) : Bool := c = ',' || c = '[' || c = ']' || c = '\x7b' || c = '\x7d'

/-- Does a colon here break off a plain scalar in a flow collection? -/
def atBadColon : List Char → Bool
  | ':' :: c :: _ => isFlowMark c || c = '?'
  | _ => false

/-- Does a plain scalar end here for what comes next? -/
def endsPlain (inFlow : Bool) : List Char → Bool
  | [] => true
  | c :: cs => (c = ':' && atGap cs) || (inFlow && isFlowMark c)

/-- A plain scalar: its text, whether a line ended after it, and what comes next. Its lines
    have to be indented. -/
def plainText (inFlow : Bool) (indent : Int) :
    Gap → Spot → List Char → Option (List Char × Bool × Cursor)
  | gap, p, [] => some ([], gap.hasBreak, ⟨[], p⟩)
  | gap, p, c :: cs =>
    if isSpace c ∨ isBreak c then
      if gap.hasBreak ∧ c = '\t' ∧ p.column < indent then none
      else plainText inFlow indent (gap.add c) (p.after c) cs
    else if gap ≠ .none
        ∧ ((¬inFlow ∧ p.column < indent) ∨ (p.column = 0 ∧ atDocumentMark (c :: cs)) ∨ c = '#') then
      some ([], gap.hasBreak, ⟨c :: cs, p⟩)
    else if inFlow ∧ atBadColon (c :: cs) then none
    else if endsPlain inFlow (c :: cs) then some ([], gap.hasBreak, ⟨c :: cs, p⟩)
    else
      (plainText inFlow indent .none (p.after c) cs).map fun (text, ended, cur) =>
        (gap.text ++ c :: text, ended, cur)

/-- What is kept of the line ends after the last line of a block scalar. -/
inductive Chomping where
  | strip
  | clip
  | keep
  deriving DecidableEq

def Chomping.tail : Chomping → Option Char → List Char → List Char
  | .strip, _, _ => []
  | .clip, first, _ => first.toList
  | .keep, first, more => first.toList ++ more

/-- Where in a block scalar a reader is. -/
inductive BlockState where
  /-- Before a line; the line end before it, further line ends, and whether the line before
      began with a blank. -/
  | margin (first : Option Char) (more : List Char) (afterBlank : Bool)
  | line (blank : Bool)

/-- What the line ends before a line leave in the text. -/
def joint (literal : Bool) (first : Option Char) (more : List Char) (besideBlank : Bool) :
    List Char :=
  if ¬literal ∧ first = some '\n' ∧ ¬besideBlank then
    if more = [] then [' '] else more
  else first.toList ++ more

/-- The lines of a block scalar that stand at the given column. -/
def blockText (literal : Bool) (chomping : Chomping) (indent : Nat) :
    BlockState → Spot → List Char → Option (List Char × Cursor)
  | .margin first more _, p, [] => some (chomping.tail first more, ⟨[], p⟩)
  | .line _, p, [] => some ([], ⟨[], p⟩)
  | .margin first more afterBlank, p, c :: cs =>
    if p.column < indent ∧ c = ' ' then
      blockText literal chomping indent (.margin first more afterBlank) (p.after c) cs
    else if p.column < indent ∧ c = '\t' then none
    else if isBreak c then
      blockText literal chomping indent (.margin first (more ++ [c]) afterBlank) (p.after c) cs
    else if p.column = indent then
      prepend (joint literal first more (afterBlank || isSpace c) ++ [c])
        (blockText literal chomping indent (.line (isSpace c)) (p.after c) cs)
    else some (chomping.tail first more, ⟨c :: cs, p⟩)
  | .line blank, p, c :: cs =>
    if isBreak c then
      blockText literal chomping indent (.margin (some c) [] blank) (p.after c) cs
    else prepend [c] (blockText literal chomping indent (.line blank) (p.after c) cs)

/-- The empty lines in front of a block scalar: their ends, the widest column met, and what
    comes next. -/
def emptyLines : (widest : Nat) → Spot → List Char → Option (List Char × Nat × Cursor)
  | widest, p, [] => some ([], max widest p.column, ⟨[], p⟩)
  | widest, p, c :: cs =>
    if c = ' ' then emptyLines widest (p.after c) cs
    else if c = '\t' then none
    else if isBreak c then
      (emptyLines (max widest p.column) (p.after c) cs).map fun (ends, widest, cur) =>
        (c :: ends, widest, cur)
    else some ([], max widest p.column, ⟨c :: cs, p⟩)

/-- What the head of a block scalar says: an indentation, and what to keep at the end. -/
structure BlockHead where
  indentation : Option Nat
  chomping : Chomping

def chomping? : List Char → Option (Chomping × List Char)
  | '+' :: cs => some (.keep, cs)
  | '-' :: cs => some (.strip, cs)
  | _ => none

/-- An indentation is a digit that is not zero. -/
def indentation? : List Char → Option (Option Nat × List Char)
  | [] => some (none, [])
  | c :: cs =>
    if c = '0' then none
    else if c.isDigit then some (some (c.toNat - '0'.toNat), cs)
    else some (none, c :: cs)

/-- The two indicators may come in either order. -/
def blockHead? (cs : List Char) : Option (BlockHead × List Char) :=
  match chomping? cs with
  | some (chomping, cs) =>
    (indentation? cs).map fun (indentation, cs) => (⟨indentation, chomping⟩, cs)
  | none =>
    (indentation? cs).map fun (indentation, cs) =>
      match indentation, chomping? cs with
      | some n, some (chomping, cs) => (⟨some n, chomping⟩, cs)
      | _, _ => (⟨indentation, .clip⟩, cs)

/-- The end of a line with nothing but blanks and a comment before it. -/
def lineEnd? (cs : List Char) : Option (List Char) :=
  let cs := match cs.dropWhile isSpace with
    | '#' :: cs => cs.dropWhile (!isBreak ·)
    | cs => cs
  match cs with
  | [] => some []
  | c :: cs => if isBreak c then some cs else none

/-- A block scalar, from after its first character; `parent` is the indentation around it. -/
def blockScalar? (literal : Bool) (parent : Int) (cur : Cursor) :
    Option (List Char × Cursor) := do
  let (head, cs) ← blockHead? cur.rest
  let cs ← lineEnd? cs
  let p : Spot := ⟨cur.spot.line + 1, 0⟩
  match head.indentation with
  | some n =>
    blockText literal head.chomping ((max parent 0).toNat + n) (.margin none [] false) p cs
  | none =>
    let (ends, widest, cur) ← emptyLines 0 p cs
    let indent := max (max widest (parent + 1).toNat) 1
    blockText literal head.chomping indent (.margin none ends false) cur.spot cur.rest

end PhaseCert.Yaml
