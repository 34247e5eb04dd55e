/-
  PhaseCert.Instance — the proof instance for a protocol and its certificate.

  An instance is source text for a proof assistant: six constants and two statements about
  them. The text depends on nothing but the six values, reals are written with ten places,
  and a value that is no finite number has no text.
-/
import PhaseCert.Certificate.Normalization
import PhaseCert.Protocol

namespace PhaseCert

/-- The constants of an instance. -/
structure InstanceValues where
  n : Nat
  prior0 : Binary64
  prior1 : Binary64
  lower : Binary64
  upper : Binary64
  epsilon : Binary64
  deriving DecidableEq

/-- A real that cannot be written, under the name of its constant. -/
structure NotFinite where
  name : String
  value : Binary64
  deriving DecidableEq

def NotFinite.message (e : NotFinite) : String :=
  "Cannot render '" ++ e.name ++ "' = " ++ NumberLayout.plain.text e.value ++ " as a Coq real"

namespace Instance

def realPlaces : Nat := 10

/-- A real literal; a zero has no sign. -/
def realLiteral (x : Binary64) : String :=
  "(" ++ fixedText realPlaces (if x.place? = some 0 then .zero else x) ++ ")%R"

def intLiteral (n : Nat) : String := "(" ++ toString n ++ ")%Z"

def definition (name type literal : String) : String :=
  "Definition " ++ name ++ " : " ++ type ++ " := " ++ literal ++ "."

def lines (v : InstanceValues) : List String :=
  ["(* Proof instance generated by qkdv. Do not edit by hand:",
    "   regenerate it from the protocol configuration instead. *)",
    "",
    "Require Import Reals.",
    "Require Import ZArith.",
    "Require Import Lra.",
    "Open Scope R_scope.",
    "",
    "(* Protocol parameters *)",
    definition "N" "Z" (intLiteral v.n),
    definition "p_psi0" "R" (realLiteral v.prior0),
    definition "p_psi1" "R" (realLiteral v.prior1),
    "",
    "(* Certified phase-error interval *)",
    definition "delta_ph_lower" "R" (realLiteral v.lower),
    definition "delta_ph_upper" "R" (realLiteral v.upper),
    "",
    "(* Security parameter budget *)",
    definition "epsilon" "R" (realLiteral v.epsilon),
    "",
    "Lemma delta_ph_interval_sound :",
    "  0 <= delta_ph_lower /\\ delta_ph_lower <= delta_ph_upper /\\ delta_ph_upper <= 1.",
    "Proof.",
    "  unfold delta_ph_lower, delta_ph_upper; lra.",
    "Qed.",
    "",
    "Theorem b92_security_stub :",
    "  0 < epsilon -> 0 <= delta_ph_lower /\\ delta_ph_upper <= 1.",
    "Proof.",
    "  intros _; unfold delta_ph_lower, delta_ph_upper; lra.",
    "Qed."]

/-- Each line with its end. -/
def joinLines (ls : List String) : String := String.join (ls.map (· ++ "\n"))

/-- The reals under the names of their constants, in the order they are looked at. -/
def reals (v : InstanceValues) : List (String × Binary64) :=
  [("p_psi0", v.prior0), ("p_psi1", v.prior1), ("delta_ph_lower", v.lower),
    ("delta_ph_upper", v.upper), ("epsilon", v.epsilon)]

/-- The first real that cannot be written. -/
def notFinite? (v : InstanceValues) : Option NotFinite :=
  ((reals v).find? fun r => !r.2.isFinite).map fun r => ⟨r.1, r.2⟩

/-- The text of an instance. -/
def render (v : InstanceValues) : Except NotFinite String :=
  match notFinite? v with
  | some e => .error e
  | none => .ok (joinLines (lines v))

def defaultN : Nat := 1000

/-- The values for a protocol and a certificate. The number of signals and the priors are
    parameters that may be left out. -/
def values (p : Protocol) (c : Certificate) : Except Fault InstanceValues := do
  let n ← p.parameters.countOr "N" defaultN
  let prior0 ← p.parameters.realOr "p_psi0" .half
  let prior1 ← p.parameters.realOr "p_psi1" .half
  return ⟨n, prior0, prior1, c.interval.lower, c.interval.upper, p.securityGoal.epsilon⟩

/-- The values as they are shown to whoever wants to know. -/
def valuesText (v : InstanceValues) : String :=
  let field (name : String) (x : Binary64) : String := name ++ ": " ++ NumberLayout.exact.text x
  "InstanceValues \x7b n: " ++ toString v.n ++ ", "
    ++ String.intercalate ", " ((reals v).map fun r => field r.1 r.2) ++ " \x7d"

end Instance

end PhaseCert
