/-
  PhaseCert.Protocol — the description of a key distribution protocol.

  States and measurements are carried as they were given: normalising them and checking that
  they are positive is the business of whoever computes with them.
-/
import PhaseCert.Parameters

namespace PhaseCert

/-- A complex amplitude. -/
structure Amplitude where
  re : Binary64
  im : Binary64
  deriving DecidableEq

/-- A state that the sender prepares, with its prior probability. -/
structure SignalState where
  label : String
  prior : Binary64
  amplitudes : List Amplitude
  deriving DecidableEq

/-- One element of the receiver's measurement; the matrix is a list of rows. -/
structure PovmElement where
  label : String
  matrix : List (List Amplitude)
  deriving DecidableEq

/-- Rows, and the width of the first of them. -/
def PovmElement.shape (e : PovmElement) : Nat × Nat :=
  (e.matrix.length, (e.matrix.head?.map List.length).getD 0)

structure Measurement where
  /-- Is the measurement to be normalised before use? -/
  normalize : Bool
  povm : List PovmElement
  deriving DecidableEq

structure Device where
  eta : Binary64
  darkCount : Binary64
  detectorEfficiency : Binary64
  deriving DecidableEq

structure ErrorCorrection where
  scheme : String
  targetFailure : Binary64
  inefficiency : Binary64
  deriving DecidableEq

structure PrivacyAmplification where
  method : String
  hashFamily : String
  securityParameter : Binary64
  deriving DecidableEq

structure Postprocessing where
  sifting : String
  errorCorrection : ErrorCorrection
  privacyAmplification : PrivacyAmplification
  deriving DecidableEq

/-- What was observed in a run. -/
structure Observed where
  conclusive : Binary64
  conclusiveErrorRate : Binary64
  inconclusive : Binary64
  deriving DecidableEq

structure SecurityGoal where
  output : String
  epsilon : Binary64
  formulaHint : String
  deriving DecidableEq

structure Authorship where
  author : String
  email : String
  date : String
  notes : String
  deriving DecidableEq

structure Protocol where
  name : String
  description : String
  parameters : Parameters
  states : List SignalState
  measurement : Measurement
  device : Device
  postprocessing : Postprocessing
  observed : Observed
  securityGoal : SecurityGoal
  authorship : Authorship

end PhaseCert
