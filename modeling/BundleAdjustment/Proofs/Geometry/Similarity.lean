import BundleAdjustment.Proofs.Coordinates
import BundleAdjustment.Geometry.Pinhole
import Mathlib.Tactic.FieldSimp
import Mathlib.Tactic.LinearCombination

/-!
Motions of a whole scene.

A similarity shifts, turns and scales the world. Its first-order step moves a point `p` by
`τ + ω × p + s p` and a pose at `t` by `(τ + s t, ω)`. A pixel does not see it: with `d` a row of
the derivative by the camera coordinates `c`, and `g = R d`, the parts of the pose and of the point
add up to `s (g · (p - t)) = s (d · c)` (`step_cancels`), and every `d` is orthogonal to `c`, because
points on one ray have one pixel (`byLocal_dot`).
-/
namespace BundleAdjustment
variable {K : Type} [ExactScalar K]

/-! ### Components -/

namespace Vec3

theorem add_eq (a b : Vec3 K) : a + b = ⟨a.x + b.x, a.y + b.y, a.z + b.z⟩ := rfl

theorem sub_eq (a b : Vec3 K) : a - b = ⟨a.x - b.x, a.y - b.y, a.z - b.z⟩ := rfl

theorem neg_eq (a : Vec3 K) : -a = ⟨-a.x, -a.y, -a.z⟩ := rfl

omit [ExactScalar K] in
theorem size_toVec (a : Vec3 K) : a.toVec.size = 3 := Vec.size_ofFn _ _

/-- A matrix on one side of an inner product is its transpose on the other. -/
theorem dot_mulVec (A : Mat3 K) (u v : Vec3 K) : (A.mulVec u).dot v = u.dot (A.transpose.mulVec v) := by
  simp only [Mat3.mulVec, Mat3.transpose, dot]
  ring

/-- A row of three numbers times a vector. -/
theorem sum_toVec (a b : Vec3 K) :
    (Scalar.sum 3 fun j => a.toList.getD j 0 * b.toVec.get j) = a.dot b := by
  simp [Scalar.sum_succ, toVec, Vec.get_ofFn, get, toList, dot]

end Vec3

namespace Mat3

theorem add_eq (A B : Mat3 K) : A + B = ⟨A.row₀ + B.row₀, A.row₁ + B.row₁, A.row₂ + B.row₂⟩ := rfl

theorem one_mul (A : Mat3 K) : one.mul A = A := by
  simp [mul, one, mulVec, transpose, Vec3.dot]

theorem one_mulVec (v : Vec3 K) : one.mulVec v = v := by
  simp [mulVec, one, Vec3.dot]

end Mat3

namespace Pose

theorem size_toVec (q : Pose K) : q.toVec.size = poseWidth := by
  rw [toVec, Vec.append, Vec.size_ofFn, Vec3.size_toVec, Vec3.size_toVec]
  rfl

/-- A row of six numbers times the numbers of a pose. -/
theorem sum_toVec (a b : Vec3 K) (q : Pose K) :
    (Scalar.sum poseWidth fun j => (a.toList ++ b.toList).getD j 0 * q.toVec.get j) =
      a.dot q.position + b.dot q.axisAngle := by
  simp [poseWidth, Scalar.sum_succ, toVec, Vec.append, Vec3.toVec, Vec.get_ofFn, Vec3.get, Vec3.toList,
    Vec3.dot]
  ring

end Pose

/-! ### Steps of nothing -/

namespace Rotation

/-- A turn by nothing is the identity, whatever its angle is taken to be. -/
theorem expAngle_zero (angle : K) : expAngle angle (Vec3.zero : Vec3 K) = Mat3.one := by
  unfold expAngle
  split <;> simp [Vec3.zero, Vec3.divide, Vec3.scale, Mat3.hat, Mat3.one, Mat3.mul, Mat3.mulVec,
    Mat3.transpose, Mat3.scale, Mat3.add_eq, Vec3.add_eq, Vec3.dot]

end Rotation

theorem Pose.motion_identity : (identity : Pose K).motion = ⟨Mat3.one, Vec3.zero⟩ := by
  rw [motion, identity, Rotation.exp, Rotation.expAngle_zero]

/-- A step of nothing leaves a motion as it was. -/
theorem RigidMotion.identity_compose (T : RigidMotion K) : Pose.identity.motion.compose T = T := by
  have hzero : T.shift + (Vec3.zero : Vec3 K) = T.shift := by
    simp [Vec3.add_eq, Vec3.zero]
  rw [Pose.motion_identity, compose]
  dsimp only
  rw [Mat3.one_mul, Mat3.one_mulVec, hzero]

/-- The camera coordinates of a point are those in the frame of the pose. -/
theorem Projection.localPoint_eq (pose : Pose K) (p : Vec3 K) :
    localPoint pose p = pose.motion.rotation.transpose.mulVec (p - pose.position) := by
  rw [localPoint, RigidMotion.identity_compose]
  rfl

/-- Moving along its ray does not move a pixel. -/
theorem Projection.byLocal_dot (k : Calibration K) (c : Vec3 K) :
    (byLocal k c).1.dot c = 0 ∧ (byLocal k c).2.dot c = 0 := by
  by_cases hz : c.z = 0
  · simp [byLocal, Vec3.dot, hz]
  · simp only [byLocal, Vec3.dot]
    constructor
    · field_simp
      ring
    · field_simp
      ring

/-! ### Similarities -/

/-- A first-order step of the whole world. -/
structure Similarity (K : Type) where
  shift : Vec3 K
  turn : Vec3 K
  growth : K

namespace Similarity

/-- The step of a point, `τ + ω × p + s p`. -/
def ofPoint (σ : Similarity K) (p : Vec3 K) : Vec3 K := σ.shift + σ.turn.cross p + p.scale σ.growth

/-- The step of a pose, `(τ + s t, ω)`. -/
def ofPose (σ : Similarity K) (q : Pose K) : Pose K := ⟨σ.shift + q.position.scale σ.growth, σ.turn⟩

/-- Of a step of the world a row `g` keeps the growth along the ray. -/
theorem step_cancels (σ : Similarity K) (g p : Vec3 K) (q : Pose K) :
    (-g).dot (σ.ofPose q).position + (g.cross p).dot (σ.ofPose q).axisAngle + g.dot (σ.ofPoint p) =
      σ.growth * g.dot (p - q.position) := by
  simp only [ofPose, ofPoint, Vec3.dot, Vec3.cross, Vec3.scale, Vec3.add_eq, Vec3.sub_eq, Vec3.neg_eq]
  ring

/-- A row of the derivative by the camera coordinates that is orthogonal to them does not see the step. -/
theorem row_cancels (σ : Similarity K) (d p : Vec3 K) (q : Pose K)
    (hd : d.dot (Projection.localPoint q p) = 0) :
    (-(q.motion.rotation.mulVec d)).dot (σ.ofPose q).position +
        ((q.motion.rotation.mulVec d).cross p).dot (σ.ofPose q).axisAngle +
      (q.motion.rotation.mulVec d).dot (σ.ofPoint p) = 0 := by
  rw [step_cancels, Vec3.dot_mulVec, ← Projection.localPoint_eq, hd, mul_zero]

end Similarity

/-! ### Projections -/

theorem Mat.get_ofRows_mulVec {cols : Nat} {rows : List (List K)} {x : Vec K} {i : Nat} (h : i < rows.length) :
    ((ofRows cols rows).mulVec x).get i = Scalar.sum cols fun j => (rows.getD i []).getD j 0 * x.get j := by
  rw [get_mulVec h]
  refine Scalar.sum_congr fun j hj => ?_
  have hj : j < cols := hj
  rw [ofRows, get_ofFn h hj]

theorem Mat.get_zeros_mulVec (r c : Nat) (x : Vec K) (i : Nat) : ((zeros r c).mulVec x).get i = 0 := by
  rcases Nat.lt_or_ge i r with h | h
  · rw [get_mulVec h, Scalar.sum_eq_range]
    exact Finset.sum_eq_zero fun j _ => by rw [get_zeros, zero_mul]
  · exact Vec.get_of_size_le (by rwa [size_mulVec])

/-- The derivatives by pose and point, applied to a step of the world, cancel. -/
theorem Projection.step_ofPoint (σ : Similarity K) (q : Pose K) (p : Vec3 K) (k : Calibration K) (i : Nat) :
    ((ofPoint q p k).byPose.mulVec (σ.ofPose q).toVec).get i +
      ((ofPoint q p k).byPoint.mulVec (σ.ofPoint p).toVec).get i = 0 := by
  obtain ⟨hu, hv⟩ := byLocal_dot k (localPoint q p)
  unfold ofPoint
  dsimp only
  split
  · rcases Nat.lt_or_ge i 2 with hi | hi
    · rw [visible]
      dsimp only
      rw [Mat.get_ofRows_mulVec hi, Mat.get_ofRows_mulVec hi]
      have hcases : i = 0 ∨ i = 1 := by omega
      rcases hcases with rfl | rfl
      · have h := σ.row_cancels _ p q hu
        rwa [← Pose.sum_toVec, ← Vec3.sum_toVec] at h
      · have h := σ.row_cancels _ p q hv
        rwa [← Pose.sum_toVec, ← Vec3.sum_toVec] at h
    · rw [Vec.get_of_size_le, Vec.get_of_size_le, add_zero]
      · rw [Mat.size_mulVec]
        exact hi
      · rw [Mat.size_mulVec]
        exact hi
  · rw [invisible]
    dsimp only
    rw [Mat.get_zeros_mulVec, Mat.get_zeros_mulVec, add_zero]

end BundleAdjustment
