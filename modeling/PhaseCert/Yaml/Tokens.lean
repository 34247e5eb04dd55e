/-
  PhaseCert.Yaml.Tokens — a YAML stream as a list of tokens.

  Indentation becomes tokens: a collection in block style opens where a first item or key
  stands further in than what is around it, and ends where a line stands further out.

  A key in front of a colon is known only once the colon is met. So where a key may begin,
  the tokens from there on are held back; at the colon a key token, and the opening of a
  mapping where there is one, go in front of them. That works while the colon is on the
  same line and at most 1024 characters further on.

  Each flow collection that is open has a level of its own, and only block style, at the
  outermost level, knows indentation.
-/
import PhaseCert.Yaml.Scalar
import PhaseCert.Yaml.Token

namespace PhaseCert.Yaml

/-- A place where a key may begin. Where nothing else can stand, it is required. -/
structure PossibleKey where
  spot : Spot
  required : Bool

/-- The tokens of a level, the last ones first: those that stay where they are, and those
    since the last place where a key may begin. -/
structure Level where
  settled : List Token
  held : List Token
  possible : Option PossibleKey

namespace Level

def empty : Level := ⟨[], [], none⟩

def tokens (l : Level) : List Token := l.held ++ l.settled

def push (l : Level) (t : Token) : Level := { l with held := t :: l.held }

def pushAll (l : Level) (ts : List Token) : Level := { l with held := ts ++ l.held }

/-- From here on no key may begin where one might have; a required one is then missing. -/
def giveUp? (l : Level) : Option Level :=
  match l.possible with
  | some k => if k.required then none else some { l with possible := none }
  | none => some l

end Level

structure Scan where
  cursor : Cursor
  /-- May a key begin here? -/
  keysAllowed : Bool
  /-- The column of the innermost block collection, -1 outside of all. -/
  indent : Int
  outerIndents : List Int
  level : Level
  outerLevels : List Level

namespace Scan

def ofSource (cs : List Char) : Scan := ⟨⟨cs, ⟨0, 0⟩⟩, true, -1, [], .empty, []⟩

def inFlow (s : Scan) : Bool := !s.outerLevels.isEmpty

def column (s : Scan) : Nat := s.cursor.spot.column

def push (s : Scan) (t : Token) : Scan := { s with level := s.level.push t }

/-- Past the next `n` characters, none of which ends a line. -/
def skip (s : Scan) (n : Nat) : Scan := { s with cursor := s.cursor.onTo (s.cursor.rest.drop n) }

def allowKeys (s : Scan) (b : Bool) : Scan := { s with keysAllowed := b }

def giveUp? (s : Scan) : Option Scan := s.level.giveUp?.map fun l => { s with level := l }

/-- Notes that a key may begin here, where that is allowed. -/
def mark? (s : Scan) : Option Scan :=
  if s.keysAllowed then
    s.giveUp?.map fun s =>
      let key : PossibleKey := ⟨s.cursor.spot, !s.inFlow && s.indent = s.column⟩
      { s with level := ⟨s.level.tokens, [], some key⟩ }
  else some s

/-- How many of the indentations are further in than a column, and those around it. -/
def leave (column : Int) : Int → List Int → Nat × Int × List Int
  | indent, [] => if column < indent then (1, -1, []) else (0, indent, [])
  | indent, outer :: rest =>
    if column < indent then
      let (n, indent, rest) := leave column outer rest
      (n + 1, indent, rest)
    else (0, indent, outer :: rest)

/-- Ends the block collections that stand further in than a column. -/
def unindent (s : Scan) (column : Int) : Scan :=
  if s.inFlow then s
  else
    let (n, indent, rest) := leave column s.indent s.outerIndents
    { s with
      indent := indent
      outerIndents := rest
      level := s.level.pushAll (List.replicate n .blockEnd) }

/-- Does a block collection at this column open? -/
def opensAt (s : Scan) (column : Nat) : Bool := !s.inFlow && s.indent < column

def indentTo (s : Scan) (column : Nat) : Scan :=
  if s.opensAt column then
    { s with indent := column, outerIndents := s.indent :: s.outerIndents }
  else s

/-- Opens a block collection, if one opens at this column. -/
def open? (s : Scan) (t : Token) : Scan :=
  if s.opensAt s.column then (s.indentTo s.column).push t else s

/-- Past blanks, comments and line ends. A new line may begin with a key, and where keys may
    begin a tab is no blank. -/
def toToken (inFlow : Bool) : (keys inComment : Bool) → Spot → List Char → Bool × Cursor
  | keys, _, p, [] => (keys, ⟨[], p⟩)
  | keys, inComment, p, c :: cs =>
    if isBreak c then toToken inFlow (keys || !inFlow) false (p.after c) cs
    else if inComment ∨ c = ' ' ∨ (c = '\t' ∧ (inFlow ∨ ¬keys))
        ∨ (c = '\uFEFF' ∧ p.column = 0) then
      toToken inFlow keys inComment (p.after c) cs
    else if c = '#' then toToken inFlow keys true (p.after c) cs
    else (keys, ⟨c :: cs, p⟩)

def skipToToken (s : Scan) : Scan :=
  let (keys, cursor) := toToken s.inFlow s.keysAllowed false s.cursor.spot s.cursor.rest
  { s with keysAllowed := keys, cursor }

/-- A mark between documents, or what leads up to a directive. -/
def outermost? (s : Scan) : Option Scan := (s.unindent (-1)).giveUp?.map (·.allowKeys false)

def versionNumber? (cs : List Char) : Option (Nat × List Char) :=
  let ds := cs.takeWhile Char.isDigit
  if ds = [] ∨ 9 < ds.length then none
  else some (ds.foldl (fun n c => 10 * n + (c.toNat - '0'.toNat)) 0, cs.drop ds.length)

def directive? (cs : List Char) : Option (Token × List Char) :=
  let name := cs.takeWhile isNameChar
  let rest := cs.dropWhile isNameChar
  if ¬atGap rest then none
  else if name = "YAML".toList then do
    let (major, rest) ← versionNumber? (rest.dropWhile isSpace)
    match rest with
    | '.' :: rest =>
      let (minor, rest) ← versionNumber? rest
      return (.version major minor, rest)
    | _ => none
  else if name = "TAG".toList then do
    let start := rest.dropWhile isSpace
    let (handle, rest) ← handle? start
    let blank := rest.takeWhile isSpace
    let (expansion, rest) ← tagBytes true 0 (rest.dropWhile isSpace)
    if blank = [] ∨ expansion = [] ∨ ¬atGap rest then none
    else return (.handle handle expansion, rest)
  else none

/-- A directive takes the rest of its line. -/
def pushDirective? (s : Scan) : Option Scan := do
  let s ← s.outermost?
  let (t, rest) ← directive? (s.cursor.rest.drop 1)
  let next ← lineEnd? rest
  return { s.push t with cursor := ⟨next, s.cursor.spot.line + 1, 0⟩ }

def pushMark? (s : Scan) (t : Token) : Option Scan := do
  let s ← s.outermost?
  return (s.push t).skip 3

def openFlow? (s : Scan) (t : Token) : Option Scan := do
  let s ← s.mark?
  let s := s.push t
  return { s.skip 1 with
    keysAllowed := true
    level := .empty
    outerLevels := s.level :: s.outerLevels }

/-- The tokens of a level that ends join those of the level around it. -/
def closeFlow? (s : Scan) (t : Token) : Option Scan := do
  let s ← s.giveUp?
  let s := match s.outerLevels with
    | [] => s
    | outer :: rest => { s with level := outer.pushAll s.level.tokens, outerLevels := rest }
  return ((s.push t).skip 1).allowKeys false

def comma? (s : Scan) : Option Scan := do
  let s ← s.giveUp?
  return ((s.push .comma).skip 1).allowKeys true

def entry? (s : Scan) : Option Scan :=
  if s.inFlow ∨ ¬s.keysAllowed then none
  else do
    let s ← (s.open? .blockSequence).giveUp?
    return ((s.push .entry).skip 1).allowKeys true

def key? (s : Scan) : Option Scan :=
  if ¬s.inFlow ∧ ¬s.keysAllowed then none
  else do
    let s ← (s.open? .blockMapping).giveUp?
    return ((s.push .key).skip 1).allowKeys (!s.inFlow)

/-- Is the colon here close enough behind the place where a key may begin? -/
def reaches (s : Scan) (k : PossibleKey) : Bool :=
  k.spot.line = s.cursor.spot.line && s.column ≤ k.spot.column + 1024

/-- The held tokens are a key, which may be the first one of a mapping. -/
def settleKey (s : Scan) (k : PossibleKey) : Scan :=
  let front := if s.opensAt k.spot.column then [.key, .blockMapping] else [.key]
  let s := s.indentTo k.spot.column
  { s with level := ⟨s.level.held ++ front ++ s.level.settled, [], none⟩, keysAllowed := false }

/-- A colon without such a key follows a longer key, or none. -/
def complexValue? (s : Scan) : Option Scan :=
  if s.inFlow then some (s.allowKeys false)
  else if s.keysAllowed then some ((s.open? .blockMapping).allowKeys true)
  else none

def value? (s : Scan) : Option Scan := do
  let s ← match s.level.possible with
    | some k =>
      if s.reaches k then some (s.settleKey k) else s.giveUp?.bind complexValue?
    | none => complexValue? s
  return (s.push .value).skip 1

def name? (s : Scan) (t : String → Token) : Option Scan := do
  let s ← s.mark?
  let cs := s.cursor.rest.drop 1
  let name := cs.takeWhile isNameChar
  let rest := cs.dropWhile isNameChar
  let ends := atGap rest || (rest.head?.map "?:,]\x7d%@`".toList.contains).getD false
  if name = [] ∨ ¬ends then none
  else
    return { (s.push (t (String.ofList name))).allowKeys false with cursor := s.cursor.onTo rest }

def tag? (s : Scan) : Option Scan := do
  let s ← s.mark?
  let (tag, rest) ← tagName? s.inFlow s.cursor.rest
  return { (s.push (.tag tag)).allowKeys false with cursor := s.cursor.onTo rest }

def blockScalar? (s : Scan) (literal : Bool) : Option Scan := do
  let s ← s.giveUp?
  let (text, cursor) ← Yaml.blockScalar? literal s.indent (s.skip 1).cursor
  return { (s.push (.scalar false (String.ofList text))).allowKeys true with cursor }

def quoted? (s : Scan) (double : Bool) : Option Scan := do
  let s ← s.mark?
  let start := (s.skip 1).cursor
  let (text, cursor) ← quotedText double (.text .none) start.spot start.rest
  return { (s.push (.scalar false (String.ofList text))).allowKeys false with cursor }

def plain? (s : Scan) : Option Scan := do
  let s ← s.mark?
  let (text, ended, cursor) ← plainText s.inFlow (s.indent + 1) .none s.cursor.spot s.cursor.rest
  return { (s.push (.scalar true (String.ofList text))).allowKeys ended with cursor }

/-- The characters that cannot begin a plain scalar. -/
def indicators : List Char := "-?:,[]\x7b\x7d#&*!|>'\"%@`".toList

/-- May a plain scalar begin here? -/
def startsPlain (inFlow : Bool) : List Char → Bool
  | [] => false
  | c :: cs =>
    !(isSpace c || isBreak c || indicators.contains c)
      || (c = '-' && !(cs.head?.map isSpace).getD false)
      || (!inFlow && (c = '?' || c = ':') && !atGap cs)

/-- The next token, with the character that it begins with and what follows that. -/
def token? (s : Scan) (c : Char) (cs : List Char) : Option Scan :=
  if s.column = 0 ∧ c = '%' then s.pushDirective?
  else if s.column = 0 ∧ atMark '-' (c :: cs) then s.pushMark? .documentStart
  else if s.column = 0 ∧ atMark '.' (c :: cs) then s.pushMark? .documentEnd
  else
    match c with
    | '[' => s.openFlow? .flowSequence
    | '\x7b' => s.openFlow? .flowMapping
    | ']' => s.closeFlow? .flowSequenceEnd
    | '\x7d' => s.closeFlow? .flowMappingEnd
    | ',' => s.comma?
    | '*' => s.name? .alias
    | '&' => s.name? .anchor
    | '!' => s.tag?
    | '\'' => s.quoted? false
    | '"' => s.quoted? true
    | c =>
      if c = '-' ∧ atGap cs then s.entry?
      else if c = '?' ∧ (s.inFlow ∨ atGap cs) then s.key?
      else if c = ':' ∧ (s.inFlow ∨ atGap cs) then s.value?
      else if (c = '|' ∨ c = '>') ∧ ¬s.inFlow then s.blockScalar? (c = '|')
      else if startsPlain s.inFlow (c :: cs) then s.plain?
      else none

/-- The tokens, once nothing is left to be read. -/
def finish? (s : Scan) : Option (List Token) :=
  if s.inFlow then none else s.outermost?.map fun s => s.level.tokens.reverse

/-- Each token takes at least one character, so `fuel` past their number is enough. -/
def run? : (fuel : Nat) → Scan → Option (List Token)
  | 0, _ => none
  | fuel + 1, s =>
    let s := s.skipToToken
    let s := s.unindent s.column
    match s.cursor.rest with
    | [] => s.finish?
    | c :: cs => (s.token? c cs).bind (run? fuel)

end Scan

/-- The tokens of a stream, if all of it can be divided into tokens. -/
def tokens? (source : String) : Option (List Token) :=
  if source.toList.all isAllowed then
    let cs := singleBreaks source.toList
    Scan.run? (cs.length + 1) (.ofSource cs)
  else none

end PhaseCert.Yaml
