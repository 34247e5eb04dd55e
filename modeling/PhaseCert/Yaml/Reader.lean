/-
  PhaseCert.Yaml.Reader — a tree from YAML text.

  A stream holds at most one document. Keys are the texts of scalars, whatever these would
  stand for as values, and of entries with one key the last one counts. Collections nest up
  to a fixed depth, what aliases stand for included, and only so many aliases are followed.
-/
import PhaseCert.Yaml.Anchor
import PhaseCert.Yaml.Resolution
import PhaseCert.Yaml.Tokens

namespace PhaseCert.Yaml

/-- How many more aliases may be followed is kept as the state. -/
abbrev Following := StateT Nat Option

/-- A node itself, or what an alias stands for. -/
def follow (root : Node Nat) : Node Nat → Following (Node Nat)
  | .alias n => fun left => if left = 0 then none else (root.target? n).map (·, left - 1)
  | x => pure x

def keyText (root : Node Nat) (x : Node Nat) : Following String := do
  match ← follow root x with
  | .scalar _ _ text => return text
  | _ => fun _ => none

/-- The tree of a node with at most so many collections around any part of it. -/
def treeOf (root : Node Nat) : (depth : Nat) → Node Nat → Following Tree
  | depth, x => do
    match depth, ← follow root x with
    | _, .scalar props plain text => fun left => (scalarTree? props.tag plain text).map (·, left)
    | depth + 1, .sequence props items =>
      if props.tag = some .own then fun _ => none
      else return .seq (← items.mapM (treeOf root depth))
    | depth + 1, .mapping props entries =>
      if props.tag = some .own then fun _ => none
      else do
        let entries ← entries.mapM fun (k, v) => do
          let k ← keyText root k
          let v ← treeOf root depth v
          return (k, v)
        return .map (KeyMap.ofList entries).entries
    | _, _ => fun _ => none

def read? (source : String) : Option Tree := do
  let x ← Node.ofTokens? (← tokens? source)
  let (root, _) ← x.numbered? []
  let (t, _) ← treeOf root Node.maxDepth root (100 * root.events)
  return t

end PhaseCert.Yaml
