/-
  PhaseCert.Log — what a run says about itself.
-/

namespace PhaseCert

inductive LogLevel where
  | warn
  | info
  | debug
  deriving DecidableEq

namespace LogLevel

def name : LogLevel → String
  | .warn => "WARN"
  | .info => "INFO"
  | .debug => "DEBUG"

/-- How often verbosity has to be asked for before records of this level are shown. -/
def threshold : LogLevel → Nat
  | .warn => 0
  | .info => 1
  | .debug => 2

end LogLevel

structure LogRecord where
  level : LogLevel
  text : String
  deriving DecidableEq

/-- A record on a line. -/
def LogRecord.line (r : LogRecord) : String := r.level.name ++ " " ++ r.text

def LogRecord.shownAt (verbosity : Nat) (r : LogRecord) : Bool := r.level.threshold ≤ verbosity

end PhaseCert
