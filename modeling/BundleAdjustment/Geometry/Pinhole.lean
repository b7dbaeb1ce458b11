import BundleAdjustment.Geometry.Pose

/-!
The pinhole camera.

A point in front of the camera is divided by its depth and carried to pixels by five
calibration numbers. Beside the pixel, a projection holds its derivatives: by a tangent step of
the pose from the left, by the point, and by the calibration. With `d` a row of the derivative
of the pixel by the camera coordinates and `g = R d`, that row's derivative is `g` by the point
and `(-g, g × point)` by the step. A point that is not in front of the camera is not valid, and
everything about it is zero.
-/
namespace BundleAdjustment

/-- Focal lengths, skew and principal point. -/
@[ext] structure Calibration (α : Type) where
  fx : α
  fy : α
  skew : α
  u₀ : α
  v₀ : α

def poseWidth : Nat := 6

def pointWidth : Nat := 3

def calibrationWidth : Nat := 5

/-- How many numbers a camera, a pose with a calibration, has. -/
def cameraWidth : Nat := poseWidth + calibrationWidth

def measurementWidth : Nat := 2

/-- A predicted measurement with its derivatives. -/
structure Projection (α : Type) where
  pixel : Vec α
  byPose : Mat α
  byPoint : Mat α
  byCalibration : Mat α
  valid : Bool

namespace Calibration
variable {α : Type} [Scalar α]

/-- The pixel of a point of the image plane at unit depth. -/
def pixel (k : Calibration α) (x y : α) : α × α := (k.fx * x + k.skew * y + k.u₀, k.fy * y + k.v₀)

end Calibration

namespace Projection
variable {α : Type} [Scalar α]

/-- Points at this depth or less cannot be projected. -/
def minDepth : α := 1e-6

/-- The projection of a point that cannot be seen. -/
def invisible : Projection α where
  pixel := Vec.zeros measurementWidth
  byPose := Mat.zeros measurementWidth poseWidth
  byPoint := Mat.zeros measurementWidth pointWidth
  byCalibration := Mat.zeros measurementWidth calibrationWidth
  valid := false

/-- The derivatives of the two pixel coordinates by the camera coordinates `c`. -/
def byLocal (k : Calibration α) (c : Vec3 α) : Vec3 α × Vec3 α :=
  let x := c.x / c.z
  let y := c.y / c.z
  (⟨k.fx / c.z, k.skew / c.z, -((k.fx * x + k.skew * y) / c.z)⟩,
    ⟨0, k.fy / c.z, -(k.fy * y / c.z)⟩)

/-- The projection through a motion of a point that has the camera coordinates `c`. -/
def visible (T : RigidMotion α) (p c : Vec3 α) (k : Calibration α) : Projection α :=
  let x := c.x / c.z
  let y := c.y / c.z
  let (u, v) := k.pixel x y
  let (du, dv) := byLocal k c
  let gu := T.rotation.mulVec du
  let gv := T.rotation.mulVec dv
  { pixel := Vec.ofFn measurementWidth fun i => if i = 0 then u else v
    byPose := Mat.ofRows poseWidth
      [(-gu).toList ++ (gu.cross p).toList, (-gv).toList ++ (gv.cross p).toList]
    byPoint := Mat.ofRows pointWidth [gu.toList, gv.toList]
    byCalibration := Mat.ofRows calibrationWidth [[x, 0, y, 1, 0], [0, y, 0, 0, 1]]
    valid := true }

/-- The camera coordinates of a point, from the motion that a step of nothing leaves. -/
def localPoint (pose : Pose α) (p : Vec3 α) : Vec3 α :=
  (Pose.identity.motion.compose pose.motion).toLocal p

/-- The projection of a point. -/
def ofPoint (pose : Pose α) (p : Vec3 α) (k : Calibration α) : Projection α :=
  let c := localPoint pose p
  if minDepth < c.z then visible pose.motion p c k else invisible

end Projection
end BundleAdjustment
