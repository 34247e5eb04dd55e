/-
  PhaseCert.Pipeline — from a protocol file to a checked proof instance.

  A run loads the protocol, estimates the phase error rate, normalises the estimate, writes
  the certificate and the instance beside each other, and has a prover check the instance.
  The first stage that fails ends the run; what was written before stays. A run says what it
  does: lines for the user, and records for the log.
-/
import PhaseCert.Generation
import PhaseCert.Loading
import PhaseCert.Verification

namespace PhaseCert

structure RunOptions where
  config : String
  outDir : String
  margin : Binary64
  prover : String
  skipVerify : Bool

inductive RunFailure where
  | load (config : String) (e : LoadError)
  | normalize (e : CertificateError)
  | dump (f : FileSystem.WriteFailure)
  | generate (e : GenerationError)
  | verify (artifact : Path) (reason : String)

def RunFailure.message : RunFailure → String
  | .load config e => "Failed to load configuration " ++ config ++ ": " ++ e.fullMessage
  | .normalize e => "Failed to normalize certificate: " ++ e.message
  | .dump f => "Failed to write certificate dump: " ++ Certificate.exportMessage f
  | .generate e => "Failed to generate proof instance: " ++ e.fullMessage
  | .verify artifact reason => "Verification of " ++ artifact.text ++ " failed: " ++ reason

/-- What a run says. -/
inductive Said where
  | line (text : String)
  | record (r : LogRecord)

structure World where
  files : FileSystem
  said : List Said

abbrev Work (α : Type) := ExceptT RunFailure (StateM World) α

namespace Work

def say (s : Said) : Work Unit := modify fun w => { w with said := w.said ++ [s] }

def print (text : String) : Work Unit := say (.line text)

def log (level : LogLevel) (text : String) : Work Unit := say (.record ⟨level, text⟩)

def files : Work FileSystem := do return (← get).files

def setFiles (fs : FileSystem) : Work Unit := modify fun w => { w with files := fs }

def orFail {α ε : Type} (failure : ε → RunFailure) : Except ε α → Work α
  | .ok x => pure x
  | .error e => throw (failure e)

/-- Takes the files that a writing leaves, and then the failure, if it failed. -/
def settle {ε : Type} (failure : ε → RunFailure) (r : FileSystem × Option ε) : Work Unit := do
  setFiles r.1
  match r.2 with
  | none => pure ()
  | some e => throw (failure e)

end Work

namespace Pipeline

open Work

def certificateName : String := "certificate.json"

def instanceName : String := "b92_inst.v"

def load (config : String) : Work Protocol := do
  let path : Path := ⟨config⟩
  let format ← orFail (.load config) (Protocol.formatOf (← files) path)
  log .debug ("Loading " ++ format.name ++ " config from " ++ config)
  let p ← orFail (.load config) (Protocol.loadAs format (← files) path)
  log .info ("Loaded protocol '" ++ p.name ++ "' (" ++ toString p.states.length ++ " states, "
    ++ toString p.measurement.povm.length ++ " POVM elements)")
  return p

def estimate (p : Protocol) : Work Estimate := do
  let e := Placeholder.estimate p
  let bound := NumberLayout.plain.text e.bound
  log .warn "Using placeholder bound estimator; delta_ph is not a security result"
  log .debug ("Placeholder estimate: error_rate_conclusive="
    ++ NumberLayout.plain.text p.observed.conclusiveErrorRate ++ " -> delta_ph=" ++ bound)
  log .info ("Estimator '" ++ Placeholder.name ++ "' returned delta_ph=" ++ bound)
  return e

def optionText : Option Binary64 → String
  | some x => "Some(" ++ NumberLayout.exact.text x ++ ")"
  | none => "None"

def normalize (e : Estimate) (margin : Binary64) : Work Certificate := do
  let c ← orFail .normalize (Certificate.normalizeEstimate e margin)
  log .debug ("Normalized delta_ph=" ++ optionText c.estimate ++ " with margin "
    ++ NumberLayout.plain.text margin ++ " -> [" ++ NumberLayout.plain.text c.interval.lower ++ ", "
    ++ NumberLayout.plain.text c.interval.upper ++ "]")
  return c

def dump (path : Path) (c : Certificate) : Work Unit := do
  settle .dump (c.writeTo (← files) path true)
  log .debug ("Wrote certificate dump to " ++ path.text)

def generate (path : Path) (p : Protocol) (c : Certificate) : Work Unit := do
  let v ← orFail (fun e => .generate (.invalid e)) (Instance.values p c)
  log .debug ("Rendering proof instance with " ++ Instance.valuesText v)
  let text ← orFail (fun e => .generate (.notFinite e)) (Instance.render v)
  settle .generate (Instance.writeTo (← files) path text)
  log .info ("Wrote proof instance " ++ path.text)

def verify (machine : Machine) (prover : String) (artifact : Path) : Work Unit := do
  print ("→ Checking with " ++ prover)
  let (report, records) := Verification.verify machine (← files) prover artifact
  for r in records do
    say (.record r)
  if report.success then print "✓ Verification passed"
  else throw (.verify artifact (report.diagnostic.getD "unknown failure"))

/-- The line that names the interval. -/
def intervalLine (i : Interval) : String :=
  "  Certificate: delta_ph in [" ++ fixedText Instance.realPlaces i.lower ++ ", "
    ++ fixedText Instance.realPlaces i.upper ++ "] (placeholder bound)"

def run (machine : Machine) (o : RunOptions) : Work Unit := do
  print ("→ Generating proof instance from " ++ o.config)
  let p ← load o.config
  print ("  Loaded: protocol " ++ p.name ++ ", " ++ toString p.states.length ++ " states, "
    ++ toString p.measurement.povm.length ++ " POVM elements")
  let e ← estimate p
  let c ← normalize e o.margin
  print (intervalLine c.interval)
  let outDir : Path := ⟨o.outDir⟩
  let dumpPath := outDir.join certificateName
  let artifact := outDir.join instanceName
  dump dumpPath c
  generate artifact p c
  print "✓ Proof instance written"
  print ("  Instance:    " ++ artifact.text)
  print ("  Certificate: " ++ dumpPath.text)
  if o.skipVerify then print "  Verification skipped"
  else verify machine o.prover artifact

end Pipeline

end PhaseCert
