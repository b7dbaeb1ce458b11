import BundleAdjustment.Geometry.Arrays
import BundleAdjustment.Journal
import BundleAdjustment.Key.Symbol
import BundleAdjustment.Linear.Factor
import BundleAdjustment.Variable

/-!
Observations: one measured pixel of one landmark.

An observation predicts its measurement from the estimates of its keys, either a camera and a
landmark, or a pose, a landmark and a calibration that others may share. Where the landmark is
not in front of the camera there is nothing to predict: the residual and its derivatives are
zero, and a warning names the two. Linearized, an observation is a linear factor with the
negative residual as right-hand side and the noise folded in exactly once.
-/
namespace BundleAdjustment

/-- What an observation ties together. -/
inductive ObservationKind where
  /-- A camera with its own calibration, and a landmark. -/
  | cameraLandmark
  /-- A pose, a landmark and a calibration. -/
  | poseLandmarkCalibration
  /-- Nothing yet: an observation of no particular kind. -/
  | abstract
  deriving DecidableEq

namespace ObservationKind

/-- The name under which messages speak of an observation. -/
def name : ObservationKind → String
  | cameraLandmark => "CameraLandmarkFactor"
  | poseLandmarkCalibration => "PoseLandmarkCalibrationFactor"
  | abstract => "ReprojectionFactor"

/-- The kinds of the unknowns, in the order of the keys. -/
def unknowns : ObservationKind → List VariableKind
  | cameraLandmark => [.camera, .landmark]
  | poseLandmarkCalibration => [.pose, .landmark, .calibration]
  | abstract => []

end ObservationKind

/-- One measured pixel, the noise on it and the keys of the unknowns that predict it. An
observation can be switched off. -/
structure Observation (α : Type) where
  kind : ObservationKind
  measured : Vec α
  noise : Option (Noise α)
  keys : List Key
  enabled : Bool
  measured_size : measured.size = measurementWidth
  keys_length : keys.length = kind.unknowns.length
  noise_rows : ModelRows noise measurementWidth

namespace Observation
variable {α : Type}

/-- An observation from its parts, of which the measurement, the keys and the noise are checked
in that order. -/
def ofParts (kind : ObservationKind) (measured : Tensor α) (noise : Option (Noise α))
    (keys : List Key) (enabled : Bool) : Except Fault (Observation α) :=
  let m := measured.flatten
  if hm : m.size = measurementWidth then
    if hk : keys.length = kind.unknowns.length then
      if hn : ModelRows noise measurementWidth then
        .ok ⟨kind, m, noise, keys, enabled, hm, hk, hn⟩
      else .error (modelMisfit (.noiseRows · measurementWidth) noise)
    else .error (.keyCount kind.name kind.unknowns.length keys.length)
  else .error (.measurementShape measurementWidth [m.size])

def setEnabled (o : Observation α) (enabled : Bool) : Observation α :=
  { o with enabled := enabled }

def estimates (o : Observation α) (values : Table Key (Tensor α)) :
    Except Fault (List (Tensor α)) :=
  o.keys.mapM fun key =>
    match values.find? key with
    | some t => .ok t
    | none => .error (.estimateMissing key)

variable [Scalar α]

/-- A predicted pixel and its derivatives, one by each unknown. -/
structure Prediction (α : Type) where
  pixel : Vec α
  jacobians : List (Mat α)
  valid : Bool

/-- The prediction at estimates of the observation's unknowns. -/
def predict (kind : ObservationKind) (values : List (Tensor α)) : Except Fault (Prediction α) :=
  match kind, values with
  | .cameraLandmark, [camera, point] => do
    let (pose, calibration) ← camera.splitCamera
    let p ← pose.project point calibration
    return ⟨p.pixel, [p.byPose.beside p.byCalibration, p.byPoint], p.valid⟩
  | .poseLandmarkCalibration, [pose, point, calibration] => do
    let p ← pose.project point calibration
    return ⟨p.pixel, [p.byPose, p.byPoint, p.byCalibration], p.valid⟩
  | _, _ => .error .noProjection

/-- The warning that a landmark is not in front of the camera. -/
def behindCamera (o : Observation α) : Except Fault (Event α) := do
  let landmark ← (o.keys.getD 1 (.number 0)).label
  let camera ← (o.keys.getD 0 (.number 0)).label
  return .behindCamera landmark camera

/-- The residual, predicted less measured, and its derivatives, one by each unknown. -/
def evaluate (o : Observation α) (values : List (Tensor α)) :
    Noted α (Vec α × List (Mat α)) := do
  if values.length ≠ o.keys.length then
    throw (.valueCount o.kind.name o.keys.length values.length)
  let p ← (predict o.kind values : Except Fault _)
  if p.valid then return (p.pixel - o.measured, p.jacobians)
  else
    Noted.note (← o.behindCamera)
    return (Vec.zeros measurementWidth, p.jacobians.map fun J => Mat.zeros J.rows J.cols)

def whitenedResidual (o : Observation α) (values : Table Key (Tensor α)) : Noted α (Vec α) := do
  let (r, _) ← o.evaluate (← o.estimates values)
  LinearFactor.whitenVec o.noise r

/-- Half the squared length of the whitened residual; nothing for an observation that is
switched off. -/
def error (o : Observation α) (values : Table Key (Tensor α)) : Noted α α := do
  if o.enabled then
    let e ← o.whitenedResidual values
    return 0.5 * e.dot e
  else return 0

/-- The linear factor of an observation's residual and derivatives. -/
def factor (o : Observation α) (jacobians : List (Mat α)) (rhs : Vec α)
    (model : Option (Noise α)) : Except Fault (LinearFactor α) :=
  match o.kind, o.keys.zip (jacobians.map Tensor.ofMat) with
  | .cameraLandmark, [first, second] => LinearFactor.pair first second rhs model
  | _, terms => LinearFactor.general terms rhs model

/-- The linearization at some estimates; nothing for an observation that is switched off. -/
def linearize (o : Observation α) (values : Table Key (Tensor α)) :
    Noted α (Option (LinearFactor α)) := do
  if o.enabled then
    let (r, jacobians) ← o.evaluate (← o.estimates values)
    let model := if Noise.needsWhitening o.noise then o.noise else none
    let whitened ← jacobians.mapM fun J => LinearFactor.whitenMat model J
    let rhs ← LinearFactor.whitenVec model (-r)
    return some (← o.factor whitened rhs (LinearFactor.remainingModel o.noise))
  else return none

/-- Whether two observations are of one kind, with the same keys, close noise and close
measurements. -/
def equals (tolerance : α) (a b : Observation α) : Except Fault Bool := do
  if a.kind ≠ b.kind ∨ a.keys ≠ b.keys then return false
  if ← Noise.modelsEqual tolerance a.noise b.noise then
    return (List.range measurementWidth).all fun i =>
      Scalar.close tolerance (a.measured.get i) (b.measured.get i)
  else return false

end Observation
end BundleAdjustment
