/-
  PhaseCert.Yaml.Tag — tags, and what they ask of a node.

  A tag is written in full between angle brackets, or as a suffix to a handle that stands
  for a prefix. It is a sequence of bytes, since escapes in it stand for bytes.
-/
import PhaseCert.Text.Hex
import PhaseCert.Text.Utf8
import PhaseCert.Yaml.Cursor

namespace PhaseCert.Yaml

/-- A tag as it is written; the empty handle stands for the empty prefix. -/
structure TagName where
  handle : String
  suffix : List Nat

/-- The characters of a tag's suffix; a few more may stand in one that is written in full. -/
def isTagChar (full : Bool) (c : Char) : Bool :=
  isNameChar c || ";/?:@&=+$.%!~*'()".toList.contains c || (full && ",[]".toList.contains c)

/-- The length of a character's encoding by its first byte. -/
def encodedLength? (b : Nat) : Option Nat :=
  if b < 0x80 then some 1
  else if 0xc0 ≤ b ∧ b < 0xe0 then some 2
  else if 0xe0 ≤ b ∧ b < 0xf0 then some 3
  else if 0xf0 ≤ b ∧ b < 0xf8 then some 4
  else none

/-- The bytes of a suffix and what follows it. Escaped bytes have to make up whole encodings
    of characters: `due` of them are still to come. -/
def tagBytes (full : Bool) : (due : Nat) → List Char → Option (List Nat × List Char)
  | due, '%' :: a :: b :: cs => do
    let byte := 16 * (← hexValue? a) + (← hexValue? b)
    let due ← if due = 0 then (encodedLength? byte).map (· - 1)
      else if 0x80 ≤ byte ∧ byte < 0xc0 then some (due - 1)
      else none
    let (bytes, rest) ← tagBytes full due cs
    return (byte :: bytes, rest)
  | due, c :: cs =>
    if due ≠ 0 ∨ c = '%' then none
    else if isTagChar full c then
      (tagBytes full 0 cs).map fun (bytes, rest) => (Utf8.encode (String.singleton c) ++ bytes, rest)
    else some ([], c :: cs)
  | due, [] => if due = 0 then some ([], []) else none

/-- A handle has an exclamation mark at each end; without the second one it is the one-mark
    handle, and the name belongs to the suffix. -/
def handle? : List Char → Option (String × List Char)
  | '!' :: cs =>
    match cs.dropWhile isNameChar with
    | '!' :: rest => some (String.ofList ('!' :: cs.takeWhile isNameChar ++ ['!']), rest)
    | _ => some ("!", cs)
  | _ => none

/-- A tag of a node, from its exclamation mark. -/
def tagName? (inFlow : Bool) (cs : List Char) : Option (TagName × List Char) := do
  let (tag, rest) ← match cs with
    | '!' :: '<' :: cs => do
      let (suffix, rest) ← tagBytes true 0 cs
      match suffix, rest with
      | _ :: _, '>' :: rest => some (TagName.mk "" suffix, rest)
      | _, _ => none
    | cs => do
      let (handle, cs) ← handle? cs
      let (suffix, rest) ← tagBytes false 0 cs
      if suffix ≠ [] then some (TagName.mk handle suffix, rest)
      else if handle = "!" then some (TagName.mk "" (Utf8.encode "!"), rest)
      else none
  if atGap rest ∨ (inFlow ∧ rest.head? = some ',') then some (tag, rest) else none

/-- What the handles of a document stand for. -/
abbrev Handles := List (String × List Nat)

def defaultHandles : Handles :=
  [("!", Utf8.encode "!"), ("!!", Utf8.encode "tag:yaml.org,2002:")]

/-- What a tag asks of a node. -/
inductive Tag where
  /-- An application's own tag. -/
  | own
  | bool
  | int
  | float
  | null
  | other
  deriving DecidableEq

/-- A tag in full. An application's own tag that is no text counts as none. -/
def Tag.ofBytes (bytes : List Nat) : Option Tag :=
  if bytes.head? = some '!'.toNat then (Utf8.strict? bytes).map fun _ => .own
  else if bytes = Utf8.encode "tag:yaml.org,2002:bool" then some .bool
  else if bytes = Utf8.encode "tag:yaml.org,2002:int" then some .int
  else if bytes = Utf8.encode "tag:yaml.org,2002:float" then some .float
  else if bytes = Utf8.encode "tag:yaml.org,2002:null" then some .null
  else some .other

/-- The bytes of a tag, if its handle stands for something. -/
def TagName.bytes? (handles : Handles) (t : TagName) : Option (List Nat) :=
  if t.handle = "" then some t.suffix
  else (handles.lookup t.handle).map (· ++ t.suffix)

end PhaseCert.Yaml
