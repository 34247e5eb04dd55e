/-
  PhaseCert.Yaml.Node — the nodes that a list of tokens describes.

  A node is a scalar, a sequence, a mapping or an alias, and any but an alias may have an
  anchor and a tag. Where an item, a key or a value is left out, an empty plain scalar
  stands in its place. `ν` is what anchors and aliases are known by.
-/
import PhaseCert.Yaml.Token

namespace PhaseCert.Yaml

structure Properties (ν : Type) where
  anchor : Option ν
  tag : Option Tag

def Properties.bare {ν : Type} : Properties ν := ⟨none, none⟩

inductive Node (ν : Type) where
  | alias (name : ν)
  | scalar (props : Properties ν) (plain : Bool) (text : String)
  | sequence (props : Properties ν) (items : List (Node ν))
  | mapping (props : Properties ν) (entries : List (Node ν × Node ν))

namespace Node

def empty {ν : Type} : Node ν := .scalar .bare true ""

/-- A reader takes tokens and gives a value with the tokens after it. -/
abbrev Reading (α : Type) := List Token → Option (α × List Token)

abbrev Named := Node String

/-- The anchor and the tag in front of a node, in either order, and whether there is one. -/
def properties? (handles : Handles) : Reading (Properties String × Bool)
  | .anchor name :: .tag t :: ts => do
    return ((⟨some name, Tag.ofBytes (← t.bytes? handles)⟩, true), ts)
  | .tag t :: .anchor name :: ts => do
    return ((⟨some name, Tag.ofBytes (← t.bytes? handles)⟩, true), ts)
  | .anchor name :: ts => some ((⟨some name, none⟩, true), ts)
  | .tag t :: ts => do
    return ((⟨none, Tag.ofBytes (← t.bytes? handles)⟩, true), ts)
  | ts => some ((.bare, false), ts)

section Collections

variable (item : Reading Named)

/-- The items of a block sequence, to after its end. -/
def blockItems : (fuel : Nat) → Reading (List Named)
  | 0, _ => none
  | fuel + 1, ts =>
    match ts with
    | .blockEnd :: ts => some ([], ts)
    | .entry :: ts => do
      let (x, ts) ← match ts with
        | .entry :: _ => some (empty, ts)
        | .blockEnd :: _ => some (empty, ts)
        | _ => item ts
      let (xs, ts) ← blockItems fuel ts
      return (x :: xs, ts)
    | _ => none

/-- The items of a sequence that stands at the column of the mapping around it; it ends
    where no further item comes. -/
def inlineItems : (fuel : Nat) → Reading (List Named)
  | 0, _ => none
  | fuel + 1, ts =>
    match ts with
    | .entry :: ts => do
      let (x, ts) ← match ts with
        | .entry :: _ => some (empty, ts)
        | .key :: _ => some (empty, ts)
        | .value :: _ => some (empty, ts)
        | .blockEnd :: _ => some (empty, ts)
        | _ => item ts
      let (xs, ts) ← inlineItems fuel ts
      return (x :: xs, ts)
    | ts => some ([], ts)

/-- A key or a value of a block mapping, which may be left out. -/
def blockPart (ts : List Token) : Option (Named × List Token) :=
  match ts with
  | .key :: _ => some (empty, ts)
  | .value :: _ => some (empty, ts)
  | .blockEnd :: _ => some (empty, ts)
  | _ => item ts

/-- The entries of a block mapping, to after its end. -/
def blockEntries : (fuel : Nat) → Reading (List (Named × Named))
  | 0, _ => none
  | fuel + 1, ts =>
    match ts with
    | .blockEnd :: ts => some ([], ts)
    | .key :: ts => do
      let (k, ts) ← blockPart item ts
      let (v, ts) ← match ts with
        | .value :: ts => blockPart item ts
        | _ => some (empty, ts)
      let (rest, ts) ← blockEntries fuel ts
      return ((k, v) :: rest, ts)
    | _ => none

/-- The key and value of an entry that is an item of a flow sequence. A key that is left out
    takes the token in its place with it. -/
def pair (ts : List Token) : Option (Named × List Token) := do
  let (k, ts) ← match ts with
    | .value :: ts => some (empty, ts)
    | .comma :: ts => some (empty, ts)
    | .flowSequenceEnd :: ts => some (empty, ts)
    | _ => item ts
  let (v, ts) ← match ts with
    | .value :: ts =>
      match ts with
      | .comma :: _ => some (empty, ts)
      | .flowSequenceEnd :: _ => some (empty, ts)
      | _ => item ts
    | _ => some (empty, ts)
  return (.mapping .bare [(k, v)], ts)

/-- The comma in front of every item but the first. -/
def comma? (first : Bool) (ts : List Token) : Option (List Token) :=
  if first then some ts
  else
    match ts with
    | .comma :: ts => some ts
    | _ => none

/-- The items of a flow sequence, to after its end. -/
def flowItems : (fuel : Nat) → (first : Bool) → Reading (List Named)
  | 0, _, _ => none
  | fuel + 1, first, ts =>
    match ts with
    | .flowSequenceEnd :: ts => some ([], ts)
    | _ => do
      match ← comma? first ts with
      | .flowSequenceEnd :: ts => some ([], ts)
      | .key :: ts =>
        let (x, ts) ← pair item ts
        let (xs, ts) ← flowItems fuel false ts
        return (x :: xs, ts)
      | ts =>
        let (x, ts) ← item ts
        let (xs, ts) ← flowItems fuel false ts
        return (x :: xs, ts)

/-- A key or a value of a flow mapping, which may be left out. -/
def flowPart (ts : List Token) : Option (Named × List Token) :=
  match ts with
  | .comma :: _ => some (empty, ts)
  | .flowMappingEnd :: _ => some (empty, ts)
  | _ => item ts

/-- The entries of a flow mapping, to after its end. A node that is no key is one without a
    value. -/
def flowEntries : (fuel : Nat) → (first : Bool) → Reading (List (Named × Named))
  | 0, _, _ => none
  | fuel + 1, first, ts =>
    match ts with
    | .flowMappingEnd :: ts => some ([], ts)
    | _ => do
      match ← comma? first ts with
      | .flowMappingEnd :: ts => some ([], ts)
      | .key :: ts =>
        let (k, ts) ← match ts with
          | .value :: _ => some (empty, ts)
          | _ => flowPart item ts
        let (v, ts) ← match ts with
          | .value :: ts => flowPart item ts
          | _ => some (empty, ts)
        let (rest, ts) ← flowEntries fuel false ts
        return ((k, v) :: rest, ts)
      | ts =>
        let (k, ts) ← item ts
        let (rest, ts) ← flowEntries fuel false ts
        return ((k, empty) :: rest, ts)

end Collections

/-- Does the token open a collection, or is it an item that does? -/
def opensCollection : Token → Bool
  | .flowSequence | .flowMapping | .blockSequence | .blockMapping | .entry => true
  | _ => false

/-- A node with at most so many collections around any part of it. In block style (`block`)
    the token of a block collection may begin it, and where an entry's key or value stands
    (`inline`) also an item. -/
def node? (handles : Handles) : (depth : Nat) → (block inline : Bool) → Reading Named
  | depth, block, inline, ts =>
    match ts with
    | .alias name :: ts => some (.alias name, ts)
    | _ => do
      let ((props, given), ts) ← properties? handles ts
      match depth, ts with
      | _, .scalar plain text :: ts => return (.scalar props plain text, ts)
      | 0, t :: ts =>
        if given ∧ ¬opensCollection t then return (.scalar props true "", t :: ts) else none
      | depth + 1, .flowSequence :: ts =>
        let (items, ts) ← flowItems (node? handles depth false false) (ts.length + 1) true ts
        return (.sequence props items, ts)
      | depth + 1, .flowMapping :: ts =>
        let (entries, ts) ← flowEntries (node? handles depth false false) (ts.length + 1) true ts
        return (.mapping props entries, ts)
      | depth + 1, t :: ts =>
        match t with
        | .entry =>
          if inline then
            let (items, ts) ← inlineItems (node? handles depth true false) (ts.length + 2) (t :: ts)
            return (.sequence props items, ts)
          else if given then return (.scalar props true "", t :: ts)
          else none
        | .blockSequence =>
          if block then
            let (items, ts) ← blockItems (node? handles depth true false) (ts.length + 1) ts
            return (.sequence props items, ts)
          else if given then return (.scalar props true "", t :: ts)
          else none
        | .blockMapping =>
          if block then
            let (entries, ts) ← blockEntries (node? handles depth true true) (ts.length + 1) ts
            return (.mapping props entries, ts)
          else if given then return (.scalar props true "", t :: ts)
          else none
        | t => if given then return (.scalar props true "", t :: ts) else none
      | _, [] => if given then return (.scalar props true "", []) else none

/-- Collections nest at most this deep. -/
def maxDepth : Nat := 128

/-- The directives in front of a document: what its handles stand for, and whether there is
    a directive. A version may be given once, and a handle once. -/
def directives? : (version : Bool) → Handles → Reading (Bool × Handles)
  | version, handles, .version major minor :: ts =>
    if version ∨ major ≠ 1 ∨ (minor ≠ 1 ∧ minor ≠ 2) then none
    else directives? true handles ts
  | version, handles, .handle name expansion :: ts =>
    if (handles.lookup name).isSome then none
    else directives? version (handles ++ [(name, expansion)]) ts
  | version, handles, ts => some ((version || !handles.isEmpty, handles ++ defaultHandles), ts)

/-- After a start mark a document may be empty. -/
def content? (handles : Handles) (ts : List Token) : Option (Named × List Token) :=
  match ts with
  | [] => some (empty, [])
  | .documentStart :: _ => some (empty, ts)
  | .documentEnd :: _ => some (empty, ts)
  | .version _ _ :: _ => some (empty, ts)
  | .handle _ _ :: _ => some (empty, ts)
  | _ => node? handles maxDepth true false ts

/-- The node of a stream's one document; a stream without a document has an empty node. -/
def ofTokens? (ts : List Token) : Option Named := do
  let ((directives, handles), ts) ← directives? false [] ts
  let (x, ts) ← match ts with
    | .documentStart :: ts => content? handles ts
    | [] => if directives then none else some (empty, [])
    | ts => if directives then none else node? handles maxDepth true false ts
  if ts.all (fun t => match t with | .documentEnd => true | _ => false) then some x else none

end Node

end PhaseCert.Yaml
