/-
  PhaseCert.Yaml.Token — the tokens of a YAML stream.
-/
import PhaseCert.Yaml.Tag

namespace PhaseCert.Yaml

inductive Token where
  | version (major minor : Nat)
  | handle (name : String) (expansion : List Nat)
  | documentStart
  | documentEnd
  | blockSequence
  | blockMapping
  | blockEnd
  | flowSequence
  | flowSequenceEnd
  | flowMapping
  | flowMappingEnd
  /-- The dash in front of an item. -/
  | entry
  | comma
  | key
  | value
  | alias (name : String)
  | anchor (name : String)
  | tag (name : TagName)
  | scalar (plain : Bool) (text : String)

end PhaseCert.Yaml
