/-
  PhaseCert.Toml.Value — values of TOML.

  Arrays may run over lines, hold comments and end in a comma; inline tables may not. Arrays
  and inline tables nest up to a fixed depth.
-/
import PhaseCert.Toml.Moment
import PhaseCert.Toml.Number
import PhaseCert.Toml.Table

namespace PhaseCert.Toml

def Moment.toTree (m : Moment) : Tree := .map [(dateKey, .text (String.ofList m.text))]

def word? : List Char → Option (Tree × List Char)
  | 't' :: 'r' :: 'u' :: 'e' :: cs => some (.bool true, cs)
  | 'f' :: 'a' :: 'l' :: 's' :: 'e' :: cs => some (.bool false, cs)
  | _ => none

/-- A value that is neither an array nor an inline table. -/
def scalar? (cs : List Char) : Option (Tree × List Char) :=
  match string? cs with
  | some (s, rest) => some (.text s, rest)
  | none =>
    match word? cs with
    | some r => some r
    | none =>
      if startsMoment cs then (moment? cs).map fun (m, rest) => (m.toTree, rest)
      else number? cs

/-- The items of an array, from after the opening bracket to after the closing one. -/
def items? (item : List Char → Option (Tree × List Char)) :
    (fuel : Nat) → List Char → Option (List Tree × List Char)
  | 0, _ => none
  | fuel + 1, cs =>
    match skipLines false cs with
    | ']' :: cs => some ([], cs)
    | cs => do
      let (t, cs) ← item cs
      match skipLines false cs with
      | ',' :: cs =>
        let (ts, cs) ← items? item fuel cs
        return (t :: ts, cs)
      | ']' :: cs => return ([t], cs)
      | _ => none

/-- A key, an equals sign and a value. -/
def setting? (item : List Char → Option (Tree × List Char)) (cs : List Char) :
    Option (Setting × List Char) := do
  let (path, cs) ← keyPath? maxParts cs
  let (t, cs) ← item (skipSpace (← mark? '=' cs))
  return ((path, t), cs)

/-- The settings of an inline table, at least one, to after the closing brace. -/
def settings? (item : List Char → Option (Tree × List Char)) :
    (fuel : Nat) → List Char → Option (List Setting × List Char)
  | 0, _ => none
  | fuel + 1, cs => do
    let (s, cs) ← setting? item cs
    match skipSpace cs with
    | ',' :: cs =>
      let (rest, cs) ← settings? item fuel cs
      return (s :: rest, cs)
    | '\x7d' :: cs => return ([s], cs)
    | _ => none

/-- An inline table, from after the opening brace. -/
def inline? (item : List Char → Option (Tree × List Char)) (cs : List Char) :
    Option (Tree × List Char) :=
  match skipSpace cs with
  | '\x7d' :: cs => some (.map [], cs)
  | _ => do
    let (settings, cs) ← settings? item (cs.length + 1) cs
    return (← inlineTable? settings, cs)

/-- A value with at most so many arrays and inline tables around any part of it. -/
def value? : (depth : Nat) → List Char → Option (Tree × List Char)
  | depth + 1, '[' :: cs => do
    let (ts, cs) ← items? (value? depth) (cs.length + 1) cs
    return (.seq ts, cs)
  | depth + 1, '\x7b' :: cs => inline? (value? depth) cs
  | _, cs => scalar? cs

/-- Arrays and inline tables nest at most this deep. -/
def maxDepth : Nat := 79

end PhaseCert.Toml
