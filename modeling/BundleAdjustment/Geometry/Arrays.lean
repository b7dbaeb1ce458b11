import BundleAdjustment.Geometry.Pinhole
import BundleAdjustment.Tensor.Product

/-!
The geometry on arrays of any shape.

Estimates arrive as arrays. A component that a short array lacks is its last one, components
beyond those needed are ignored, and a point may be any array that can be set against a
position. Main statement: a pose of six numbers is read as exactly that pose's motion
(`motion_toVec`).
-/
namespace BundleAdjustment
variable {α : Type} [Scalar α]

namespace Tensor

/-- The first three components of an array of one axis that is not empty. -/
def toVec3 (t : Tensor α) : Except Fault (Vec3 α) :=
  match t.vec? with
  | some v => if 0 < v.size then .ok (Vec3.ofVec v) else .error .shapeMismatch
  | none => .error .shapeMismatch

/-- The matrix of the cross product with the components of an array. -/
def hat (t : Tensor α) : Except Fault (Mat3 α) := return Mat3.hat (← t.toVec3)

/-- The entries below two places on the first two axes. -/
def item₂ (t : Tensor α) (i j : Nat) : Except Fault (Tensor α) := do (← t.item i).item j

/-- Half the difference of two entries that transposition exchanges. -/
def halfTwist (t : Tensor α) (i j : Nat) : Except Fault (Tensor α) := do
  return ((← (← t.item₂ i j).sub (← t.item₂ j i))).map (· / 2.0)

/-- The vector of the antisymmetric part of an array of matrix entries. -/
def vee (t : Tensor α) : Except Fault (Tensor α) := do
  (← t.halfTwist 2 1).stack [← t.halfTwist 0 2, ← t.halfTwist 1 0]

/-- The rotation of an axis-angle array. The angle is the length of the whole array. -/
def rotation (t : Tensor α) : Except Fault (Mat3 α) :=
  return Rotation.expAngle t.flatten.norm (← t.toVec3)

/-- The axis-angle vector of a matrix. An axis of length one is repeated. -/
def axisAngle (t : Tensor α) : Except Fault (Vec3 α) :=
  match t.mat? with
  | some A =>
    if (A.rows = 1 ∨ A.rows = 3) ∧ (A.cols = 1 ∨ A.cols = 3) then
      .ok (Rotation.logTrace (Scalar.sum (min A.rows A.cols) fun i => A.get i i)
        (Mat3.ofFn fun i j => A.get (min i (A.rows - 1)) (min j (A.cols - 1))))
    else .error .shapeMismatch
  | none => .error .shapeMismatch

def motion (t : Tensor α) : Except Fault (RigidMotion α) := do
  return ⟨← (← t.slice 3 6).rotation, ← (← t.slice 0 3).toVec3⟩

def retract (pose delta : Tensor α) : Except Fault (Pose α) := do
  let T ← pose.motion
  return ((← delta.motion).compose T).pose

/-- World points in the coordinates of a moved frame. -/
def toLocal (T : RigidMotion α) (point : Tensor α) : Except Fault (Tensor α) := do
  (ofMat T.rotation.transpose.toMat).matmul (← point.sub (ofVec T.shift.toVec))

/-- World points in the coordinates of a camera. -/
def toCamera (pose point : Tensor α) : Except Fault (Tensor α) := do
  toLocal (← pose.motion) point

/-- World points in the coordinates of a camera after a tangent step. -/
def toCameraAfter (pose delta point : Tensor α) : Except Fault (Tensor α) := do
  let T ← pose.motion
  toLocal ((← delta.motion).compose T) point

def pixels (calibration plane : Tensor α) : Except Fault (Tensor α) := do
  let x ← plane.item 0
  let y ← plane.item 1
  let u ← (← (← (← calibration.item 0).mul x).add (← (← calibration.item 2).mul y)).add
    (← calibration.item 3)
  let v ← (← (← calibration.item 1).mul y).add (← calibration.item 4)
  u.stack [v]

def splitCamera (camera : Tensor α) : Except Fault (Tensor α × Tensor α) := do
  return (← camera.slice 0 poseWidth, ← camera.slice poseWidth cameraWidth)

def joinCamera (pose calibration : Tensor α) : Except Fault (Tensor α) := pose.append calibration

/-- The projection of a point given by arrays of exactly the right lengths. -/
def project (pose point calibration : Tensor α) : Except Fault (Projection α) :=
  if pose.shape = [poseWidth] ∧ point.shape = [pointWidth] ∧
      calibration.shape = [calibrationWidth] then
    let p := pose.flatten
    let k := calibration.flatten
    .ok (Projection.ofPoint
      ⟨⟨p.get 0, p.get 1, p.get 2⟩, ⟨p.get 3, p.get 4, p.get 5⟩⟩
      ⟨point.flatten.get 0, point.flatten.get 1, point.flatten.get 2⟩
      ⟨k.get 0, k.get 1, k.get 2, k.get 3, k.get 4⟩)
  else .error (.projectionShapes pose.shape point.shape calibration.shape)

/-! ### Vectors of the right length -/

theorem slice_ofVec (v : Vec α) (start stop : Nat) :
    (ofVec v).slice start stop = .ok (ofVec (v.slice start stop)) := by
  simp [slice, ofFn_singleton, Vec.slice]

theorem toVec3_toVec (a : Vec3 α) : (ofVec a.toVec).toVec3 = .ok a := by
  have h : a.toVec.size = 3 := by simp [Vec3.toVec]
  simp only [toVec3, vec?_ofVec, h, Vec3.ofVec]
  simp [Vec3.toVec, Vec.get_ofFn, Vec3.get]

theorem rotation_toVec (w : Vec3 α) : (ofVec w.toVec).rotation = .ok (Rotation.exp w) := by
  simp only [rotation, toVec3_toVec, flatten_ofVec]
  rfl

/-- Six numbers are read as the motion of the pose that they are. -/
theorem motion_toVec (p : Pose α) : (ofVec p.toVec).motion = .ok p.motion := by
  have ht : p.toVec.slice 0 3 = p.position.toVec := by
    apply Vec.ext_get
    · simp [Vec.slice, Pose.toVec, Vec3.toVec, Vec.append]
    · intro i hi
      simp only [Vec.slice, Pose.toVec, Vec3.toVec, Vec.append, Vec.size_ofFn] at hi ⊢
      rw [Vec.get_ofFn (by omega), Vec.get_ofFn (by omega), if_pos (by omega)]
      simp
  have hr : p.toVec.slice 3 6 = p.axisAngle.toVec := by
    apply Vec.ext_get
    · simp [Vec.slice, Pose.toVec, Vec3.toVec, Vec.append]
    · intro i hi
      simp only [Vec.slice, Pose.toVec, Vec3.toVec, Vec.append, Vec.size_ofFn] at hi ⊢
      rw [Vec.get_ofFn (by omega), Vec.get_ofFn (by omega), if_neg (by omega)]
      congr 1
      omega
  simp only [motion, slice_ofVec, ht, hr]
  show (do
    let R ← (ofVec p.axisAngle.toVec).rotation
    let t ← (ofVec p.position.toVec).toVec3
    pure (⟨R, t⟩ : RigidMotion α)) = _
  rw [rotation_toVec, toVec3_toVec]
  rfl

/-- A step between arrays of six numbers is the step between their poses. -/
theorem retract_toVec (p d : Pose α) :
    (ofVec p.toVec).retract (ofVec d.toVec) = .ok (p.retract d) := by
  simp only [retract, motion_toVec]
  rfl

end Tensor
end BundleAdjustment
