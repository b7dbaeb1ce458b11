import BundleAdjustment.Geometry.Space

/-!
Rotations and their axis-angle vectors.

`exp` is Rodrigues' formula and `log` its inverse. Below a small angle both use the first-order
formula, so that derivatives at the zero rotation are exact; elsewhere `log` divides by twice
the sine of the angle with a small regulariser, which keeps it finite at half a turn.
-/
namespace BundleAdjustment.Rotation
variable {α : Type} [Scalar α]

/-- The angle below which the first-order formulas are used. -/
def smallAngle : α := 1e-5

/-- What keeps the logarithm finite at half a turn. -/
def regulariser : α := 1e-12

/-- The rotation of an axis-angle vector whose angle is known. -/
def expAngle (angle : α) (w : Vec3 α) : Mat3 α :=
  if angle < smallAngle then Mat3.one + Mat3.hat w
  else
    let K := Mat3.hat (w.divide angle)
    Mat3.one + K.scale (Scalar.sin angle) + (K.mul K).scale (1 - Scalar.cos angle)

/-- The rotation of an axis-angle vector: its direction is the axis, its length the angle. -/
def exp (w : Vec3 α) : Mat3 α := expAngle w.norm w

/-- The angle of a rotation with a given trace. -/
def angleOfTrace (trace : α) : α := Scalar.arccos (Scalar.clamp (-1) 1 ((trace - 1) / 2.0))

/-- The axis-angle vector of a rotation whose trace is known. -/
def logTrace (trace : α) (R : Mat3 α) : Vec3 α :=
  let angle := angleOfTrace trace
  if angle < smallAngle then Mat3.vee (R - Mat3.one)
  else
    (Mat3.vee (R - R.transpose)).scale (angle / (2.0 * Scalar.sin angle + regulariser))

def log (R : Mat3 α) : Vec3 α := logTrace R.trace R

end BundleAdjustment.Rotation
