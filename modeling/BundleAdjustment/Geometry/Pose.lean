import BundleAdjustment.Geometry.Rotation

/-!
Poses of a camera in the world.

A pose is six numbers, a position and an axis-angle vector. Its rigid motion takes camera
coordinates to world coordinates; `toLocal` goes the other way. A tangent step is itself a
pose, and stepping applies its motion after the old one (`retract`).
-/
namespace BundleAdjustment

/-- A rotation followed by a shift. -/
structure RigidMotion (α : Type) where
  rotation : Mat3 α
  shift : Vec3 α

/-- Where a camera stands and how it is turned. -/
@[ext] structure Pose (α : Type) where
  position : Vec3 α
  axisAngle : Vec3 α

namespace Pose
variable {α : Type} [Scalar α]

def identity : Pose α := ⟨Vec3.zero, Vec3.zero⟩

/-- The motion from the camera's coordinates to the world's. -/
def motion (p : Pose α) : RigidMotion α := ⟨Rotation.exp p.axisAngle, p.position⟩

def toVec (p : Pose α) : Vec α := p.position.toVec.append p.axisAngle.toVec

end Pose

namespace RigidMotion
variable {α : Type} [Scalar α]

/-- The motion that applies `T` first and `D` after it. -/
def compose (D T : RigidMotion α) : RigidMotion α :=
  ⟨D.rotation.mul T.rotation, D.rotation.mulVec T.shift + D.shift⟩

/-- A point of the world in the coordinates of the moved frame. -/
def toLocal (T : RigidMotion α) (p : Vec3 α) : Vec3 α :=
  T.rotation.transpose.mulVec (p - T.shift)

def pose (T : RigidMotion α) : Pose α := ⟨T.shift, Rotation.log T.rotation⟩

end RigidMotion

namespace Pose
variable {α : Type} [Scalar α]

/-- The pose after a tangent step from the left. -/
def retract (p delta : Pose α) : Pose α := (delta.motion.compose p.motion).pose

end Pose
end BundleAdjustment
