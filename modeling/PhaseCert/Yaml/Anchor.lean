/-
  PhaseCert.Yaml.Anchor — what aliases stand for.

  Anchors are numbered in the order they are met, each by how many different names have been
  met before it; an alias has the number its name was last given. A number leads to the last
  node that has it, wherever that stands. So a name that is used again takes a number that a
  later new name may take too.
-/
import PhaseCert.Yaml.Node

namespace PhaseCert.Yaml

/-- The names met so far, each with the number it was last given. -/
abbrev Names := List (String × Nat)

/-- Gives a name the next number, in place of an earlier one. -/
def Names.give (names : Names) (name : String) : Names :=
  if (names.lookup name).isSome then
    names.map fun e => if e.1 = name then (name, names.length) else e
  else names ++ [(name, names.length)]

def Properties.numbered (props : Properties String) (names : Names) : Properties Nat × Names :=
  match props.anchor with
  | some name => (⟨some names.length, props.tag⟩, names.give name)
  | none => (⟨none, props.tag⟩, names)

namespace Node

mutual

/-- Numbers in place of names; an alias needs a name met before it. -/
def numbered? (names : Names) : Node String → Option (Node Nat × Names)
  | .alias name => (names.lookup name).map fun n => (.alias n, names)
  | .scalar props plain text =>
    let (props, names) := props.numbered names
    some (.scalar props plain text, names)
  | .sequence props items => do
    let (props, names) := props.numbered names
    let (items, names) ← itemsNumbered? names items
    return (.sequence props items, names)
  | .mapping props entries => do
    let (props, names) := props.numbered names
    let (entries, names) ← entriesNumbered? names entries
    return (.mapping props entries, names)

def itemsNumbered? (names : Names) : List (Node String) → Option (List (Node Nat) × Names)
  | [] => some ([], names)
  | x :: rest => do
    let (x, names) ← numbered? names x
    let (rest, names) ← itemsNumbered? names rest
    return (x :: rest, names)

def entriesNumbered? (names : Names) :
    List (Node String × Node String) → Option (List (Node Nat × Node Nat) × Names)
  | [] => some ([], names)
  | (k, v) :: rest => do
    let (k, names) ← numbered? names k
    let (v, names) ← numbered? names v
    let (rest, names) ← entriesNumbered? names rest
    return ((k, v) :: rest, names)

end

def props? {ν : Type} : Node ν → Option (Properties ν)
  | .alias _ => none
  | .scalar props _ _ => some props
  | .sequence props _ => some props
  | .mapping props _ => some props

def anchor? {ν : Type} (x : Node ν) : Option ν := x.props?.bind (·.anchor)

mutual

/-- A node and all nodes in it, in the order they begin. -/
def all : Node Nat → List (Node Nat)
  | .sequence props items => .sequence props items :: allOfItems items
  | .mapping props entries => .mapping props entries :: allOfEntries entries
  | x => [x]

def allOfItems : List (Node Nat) → List (Node Nat)
  | [] => []
  | x :: rest => all x ++ allOfItems rest

def allOfEntries : List (Node Nat × Node Nat) → List (Node Nat)
  | [] => []
  | (k, v) :: rest => all k ++ all v ++ allOfEntries rest

end

/-- How many events a node takes to tell: one each for scalars and aliases, two for the two
    ends of a collection. -/
def events (x : Node Nat) : Nat :=
  let counts := x.all.map fun
    | .sequence _ _ => 2
    | .mapping _ _ => 2
    | _ => 1
  counts.foldl Nat.add 0

/-- The node that an alias of this number stands for. -/
def target? (root : Node Nat) (n : Nat) : Option (Node Nat) :=
  root.all.reverse.find? fun x => x.anchor? = some n

end Node

end PhaseCert.Yaml
