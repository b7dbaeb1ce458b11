import BundleAdjustment.Proofs.Geometry.Differential
import BundleAdjustment.Proofs.Geometry.Retraction
import Mathlib.LinearAlgebra.Matrix.Determinant.Basic

/-!
Exponentials as rotations.

The matrix of a quaternion of length one has its transpose as its inverse (`Mat3.transpose_mul_ofQuaternion`). So
from the small angle on, and at zero, the exponential of a vector is orthogonal, and points keep their distances in
the coordinates of a frame that it turns (`Pose.norm_toLocal_sub`). Below the small angle the exponential
still keeps its own vector and is transposed where the vector is negated, but it is longer than a rotation by the
square of the vector (`Rotation.transpose_mul_exp_of_lt`).
-/
namespace BundleAdjustment
open Matrix

/-! ### Matrices of space -/

namespace Mat3

theorem transpose_transpose (A : Mat3 ℝ) : A.transpose.transpose = A := rfl

theorem mulVec_mulVec (A B : Mat3 ℝ) (v : Vec3 ℝ) : A.mulVec (B.mulVec v) = (A.mul B).mulVec v := by
  simp only [mulVec, mul, transpose, Vec3.dot, Vec3.mk.injEq]
  refine ⟨?_, ?_, ?_⟩ <;> ring

theorem mulVec_sub (A : Mat3 ℝ) (u v : Vec3 ℝ) : A.mulVec u - A.mulVec v = A.mulVec (u - v) := by
  simp only [mulVec, Vec3.sub_eq, Vec3.dot, Vec3.mk.injEq]
  refine ⟨?_, ?_, ?_⟩ <;> ring

theorem matrix_apply (A : Mat3 ℝ) (i j : Fin 3) : A.matrix i j = A.get i j :=
  Mat.get_ofFn i.isLt j.isLt

theorem matrix_one : (one : Mat3 ℝ).matrix = 1 := by
  ext i j
  rw [matrix_apply]
  fin_cases i <;> fin_cases j <;> simp [one, get, Vec3.get]

theorem matrix_mul (A B : Mat3 ℝ) : (A.mul B).matrix = A.matrix * B.matrix := by
  ext i j
  rw [matrix_apply, get_mul, Matrix.mul_apply, Fin.sum_univ_three]
  simp only [matrix_apply]
  rfl

theorem matrix_add (A B : Mat3 ℝ) : (A + B).matrix = A.matrix + B.matrix := by
  ext i j
  rw [matrix_apply, get_add, Matrix.add_apply, matrix_apply, matrix_apply]

/-- The part of the identity across a vector, times the square of the vector. -/
theorem matrix_across (w : Vec3 ℝ) : (one.scale (w.dot w) - outer w w).matrix =
    (w.coords ⬝ᵥ w.coords) • 1 - vecMulVec w.coords w.coords := by
  have hdot : w.dot w = w.coords ⬝ᵥ w.coords := by
    rw [dotProduct, Fin.sum_univ_three]
    rfl
  ext i j
  rw [matrix_apply, get_sub, get_scale, get_outer, hdot, Matrix.sub_apply, Matrix.smul_apply, vecMulVec_apply,
    smul_eq_mul, ← matrix_one, matrix_apply, ← Vec3.coords_eq_get, ← Vec3.coords_eq_get]

/-! ### Matrices of quaternions -/

theorem transpose_ofQuaternion (q : Quaternion ℝ) : (ofQuaternion q).transpose = ofQuaternion (star q) := by
  simp only [ofQuaternion_eq, transpose, Quaternion.re_star, Quaternion.imI_star, Quaternion.imJ_star,
    Quaternion.imK_star, Mat3.mk.injEq, Vec3.mk.injEq]
  refine ⟨⟨?_, ?_, ?_⟩, ⟨?_, ?_, ?_⟩, ?_, ?_, ?_⟩ <;> ring

theorem ofQuaternion_one : ofQuaternion 1 = one := by
  rw [ofQuaternion_eq, Quaternion.re_one, Quaternion.imI_one, Quaternion.imJ_one, Quaternion.imK_one]
  norm_num [one]

theorem ofQuaternion_zero : ofQuaternion 0 = ⟨⟨0, 0, 0⟩, ⟨0, 0, 0⟩, ⟨0, 0, 0⟩⟩ := by
  rw [ofQuaternion_eq, Quaternion.re_zero, Quaternion.imI_zero, Quaternion.imJ_zero, Quaternion.imK_zero]
  norm_num

theorem transpose_mul_ofQuaternion {q : Quaternion ℝ} (hq : Quaternion.normSq q = 1) :
    (ofQuaternion q).transpose.mul (ofQuaternion q) = one := by
  rw [transpose_ofQuaternion, ← ofQuaternion_mul, Quaternion.star_mul_self, hq, Quaternion.coe_one, ofQuaternion_one]

theorem mul_transpose_ofQuaternion {q : Quaternion ℝ} (hq : Quaternion.normSq q = 1) :
    (ofQuaternion q).mul (ofQuaternion q).transpose = one := by
  rw [transpose_ofQuaternion, ← ofQuaternion_mul, Quaternion.self_mul_star, hq, Quaternion.coe_one, ofQuaternion_one]

theorem det_ofQuaternion (q : Quaternion ℝ) :
    (ofQuaternion q).matrix.det = Quaternion.normSq q ^ 3 := by
  rw [det_fin_three]
  simp only [matrix_apply, ofQuaternion_eq, Quaternion.normSq_def']
  simp only [get, Vec3.get, Fin.val_zero, Fin.val_one, Fin.val_two]
  ring

end Mat3

/-! ### Turns and first-order rotations -/

namespace Mat3

theorem transpose_turn (θ : ℝ) (a : Vec3 ℝ) : (turn θ a).transpose = turn θ (-a) := by
  have hflip : ∀ i, (-a).get i = -a.get i := by
    rintro (_ | _ | i) <;> rfl
  have hhat : ∀ i j, (hat (-a)).get i j = (hat a).get j i := by
    rintro (_ | _ | i) (_ | _ | j) <;> simp [hat, get, Vec3.get, Vec3.neg_eq]
  have hone : ∀ i j, (one : Mat3 ℝ).get i j = one.get j i := by
    rintro (_ | _ | i) (_ | _ | j) <;> rfl
  have htranspose : ∀ i j, (turn θ a).transpose.get i j = (turn θ a).get j i := by
    rintro (_ | _ | i) (_ | _ | j) <;> rfl
  refine ext_get fun i j => ?_
  rw [htranspose, get_turn, get_turn, hhat, hone i j, hflip, hflip]
  ring

/-- A turn keeps its axis. -/
theorem turn_mulVec {θ : ℝ} {a : Vec3 ℝ} (ha : a.dot a = 1) (c : ℝ) : (turn θ a).mulVec (a.scale c) = a.scale c := by
  have hrow : ∀ i, (turn θ a).get i 0 * (c * a.x) + (turn θ a).get i 1 * (c * a.y) +
      (turn θ a).get i 2 * (c * a.z) = c * a.get i := by
    intro i
    simp only [Vec3.dot] at ha
    rw [get_turn, get_turn, get_turn]
    rcases i with _ | _ | i <;> simp only [one, hat, get, Vec3.get]
    · linear_combination (c * a.x * (1 - Real.cos θ)) * ha
    · linear_combination (c * a.y * (1 - Real.cos θ)) * ha
    · linear_combination (c * a.z * (1 - Real.cos θ)) * ha
  exact Vec3.ext (hrow 0) (hrow 1) (hrow 2)

theorem one_add_hat_entries (w : Vec3 ℝ) : one + hat w = ⟨⟨1, -w.z, w.y⟩, ⟨w.z, 1, -w.x⟩, ⟨-w.y, w.x, 1⟩⟩ := by
  simp [add_eq, Vec3.add_eq, one, hat]

/-- A first-order rotation is too long across its vector. -/
theorem transpose_mul_one_add_hat (w : Vec3 ℝ) :
    (one + hat w).transpose.mul (one + hat w) = one + (one.scale (w.dot w) - outer w w) := by
  rw [one_add_hat_entries]
  simp only [transpose, mul, mulVec, Vec3.dot, add_eq, sub_eq, scale, outer, one, Vec3.add_eq, Vec3.sub_eq,
    Vec3.scale, Mat3.mk.injEq, Vec3.mk.injEq]
  refine ⟨⟨?_, ?_, ?_⟩, ⟨?_, ?_, ?_⟩, ?_, ?_, ?_⟩ <;> ring

end Mat3

/-! ### Exponentials -/

namespace Rotation

theorem norm_neg (w : Vec3 ℝ) : (-w).norm = w.norm := by
  rw [Vec3.norm_eq, Vec3.norm_eq]
  simp only [Vec3.neg_eq, Vec3.dot, neg_mul_neg]

/-- The opposite vector has the transposed exponential. -/
theorem exp_neg (w : Vec3 ℝ) : exp (-w) = (exp w).transpose := by
  rcases lt_or_ge w.norm smallAngle with h | h
  · have hneg : (-w).norm < smallAngle := norm_neg w ▸ h
    rw [exp, expAngle, if_pos hneg, exp, expAngle, if_pos h, Mat3.one_add_hat_entries, Mat3.one_add_hat_entries]
    simp [Mat3.transpose, Vec3.neg_eq]
  · obtain ⟨a, ha, hw⟩ := w.exists_direction
    have hneg : -w = (-a).scale w.norm := by
      conv_lhs => rw [hw]
      simp [Vec3.neg_eq, Vec3.scale]
    have hunit : (-a).dot (-a) = 1 := by
      rw [← ha]
      simp only [Vec3.neg_eq, Vec3.dot, neg_mul_neg]
    rw [hneg, exp_scale hunit h, ← Mat3.transpose_turn, ← exp_scale ha h, ← hw]

/-- The exponential keeps its own vector. -/
theorem exp_mulVec_self (w : Vec3 ℝ) : (exp w).mulVec w = w := by
  rcases lt_or_ge w.norm smallAngle with h | h
  · rw [exp, expAngle, if_pos h, Mat3.one_add_hat_entries]
    refine Vec3.ext ?_ ?_ ?_
    all_goals
      simp only [Mat3.mulVec, Vec3.dot]
      ring
  · obtain ⟨a, ha, hw⟩ := w.exists_direction
    generalize w.norm = φ at *
    rw [hw, exp_scale ha h, Mat3.turn_mulVec ha]

theorem exp_of_exact {w : Vec3 ℝ} (h : Exact w) :
    ∃ q : Quaternion ℝ, Quaternion.normSq q = 1 ∧ exp w = Mat3.ofQuaternion q := by
  obtain ⟨q, p, hexp, hq, -, hp⟩ := exp_eq_ofQuaternion w
  rw [hp h, map_zero, add_zero] at hq
  refine ⟨q, hq, ?_⟩
  rw [hexp, hp h, Mat3.ofQuaternion_zero]
  simp [Mat3.sub_eq, Vec3.sub_eq]

/-- From the small angle on, and at zero, the exponential is a rotation. -/
theorem transpose_mul_exp_of_exact {w : Vec3 ℝ} (h : Exact w) :
    (exp w).matrixᵀ * (exp w).matrix = 1 ∧ (exp w).matrix.det = 1 := by
  obtain ⟨q, hq, hexp⟩ := exp_of_exact h
  rw [hexp, ← Mat3.matrix_transpose, ← Mat3.matrix_mul, Mat3.transpose_mul_ofQuaternion hq, Mat3.matrix_one,
    Mat3.det_ofQuaternion, hq, one_pow]
  exact ⟨rfl, rfl⟩

/-- Below the small angle the exponential is longer than a rotation by the square of its vector. -/
theorem transpose_mul_exp_of_lt {w : Vec3 ℝ} (h : w.norm < smallAngle) :
    (exp w).matrixᵀ * (exp w).matrix - 1 = (Mat3.one.scale (w.dot w) - Mat3.outer w w).matrix := by
  rw [← Mat3.matrix_transpose, ← Mat3.matrix_mul, exp, expAngle, if_pos h, Mat3.transpose_mul_one_add_hat,
    Mat3.matrix_add, Mat3.matrix_one, add_sub_cancel_left]

theorem abs_transpose_mul_exp_sub_one_lt {w : Vec3 ℝ} (h : w.norm < smallAngle) (i j : Fin 3) :
    |((exp w).matrixᵀ * (exp w).matrix - 1) i j| < 1e-10 := by
  have hsq := mul_self_lt_mul_self w.norm_nonneg h
  rw [Vec3.norm_mul_norm] at hsq
  rw [transpose_mul_exp_of_lt h, Mat3.matrix_apply, Mat3.get_sub, Mat3.get_scale, Mat3.get_outer]
  refine (Mat3.abs_dot_sub_outer_le w i j).trans_lt (hsq.trans_le ?_)
  norm_num [smallAngle]

end Rotation

/-! ### Coordinates of points -/

theorem Vec3.coords_ofCoords (x : Fin 3 → ℝ) : (Vec3.ofCoords x).coords = x := by
  ext i
  fin_cases i <;> rfl

/-- The length of a difference, by coordinates. -/
theorem Vec3.norm_sub_eq (u v : Vec3 ℝ) : (u - v).norm = √(∑ i, (u.coords i - v.coords i) ^ 2) := by
  have hsub : u - v = Vec3.ofCoords fun i => u.coords i - v.coords i := rfl
  rw [hsub, norm_ofCoords]

theorem Vec3.dot_transpose_mulVec {A : Mat3 ℝ} (h : A.mul A.transpose = Mat3.one) (v : Vec3 ℝ) :
    (A.transpose.mulVec v).dot (A.transpose.mulVec v) = v.dot v := by
  rw [dot_mulVec, Mat3.transpose_transpose, Mat3.mulVec_mulVec, h, Mat3.one_mulVec]

/-- Points keep their distance in the coordinates of a frame that is turned by a rotation. -/
theorem Pose.norm_toLocal_sub {q : Pose ℝ} (h : Rotation.Exact q.axisAngle) (x y : Vec3 ℝ) :
    (q.motion.toLocal x - q.motion.toLocal y).norm = (x - y).norm := by
  obtain ⟨r, hr, hexp⟩ := Rotation.exp_of_exact h
  have hrotation : q.motion.rotation = Mat3.ofQuaternion r := hexp
  have hdiff : x - q.motion.shift - (y - q.motion.shift) = x - y := by
    simp only [Vec3.sub_eq, sub_sub_sub_cancel_right]
  rw [RigidMotion.toLocal, RigidMotion.toLocal, Mat3.mulVec_sub, hdiff, Vec3.norm_eq, Vec3.norm_eq,
    Vec3.dot_transpose_mulVec (hrotation ▸ Mat3.mul_transpose_ofQuaternion hr)]

namespace Tensor

/-- A camera that is turned by a rotation sees points at their distance. -/
theorem toCamera_isometry {w : Fin 3 → ℝ} (h : Rotation.Exact (Vec3.ofCoords w)) (t x y : Fin 3 → ℝ) :
    ∃ a b : Fin 3 → ℝ,
      toCamera (ofVec (Vec.ofCoords (Fin.append t w))) (ofVec (Vec.ofCoords x)) = .ok (ofVec (Vec.ofCoords a)) ∧
      toCamera (ofVec (Vec.ofCoords (Fin.append t w))) (ofVec (Vec.ofCoords y)) = .ok (ofVec (Vec.ofCoords b)) ∧
      √(∑ i, (a i - b i) ^ 2) = √(∑ i, (x i - y i) ^ 2) := by
  obtain ⟨q, hq, hpose⟩ : ∃ q : Pose ℝ, q.axisAngle = Vec3.ofCoords w ∧ q.toVec = Vec.ofCoords (Fin.append t w) :=
    ⟨⟨Vec3.ofCoords t, Vec3.ofCoords w⟩, rfl, Pose.toVec_ofCoords (Fin.append t w)⟩
  have hdistance := Pose.norm_toLocal_sub (hq ▸ h : Rotation.Exact q.axisAngle) (Vec3.ofCoords x) (Vec3.ofCoords y)
  refine ⟨(q.motion.toLocal (Vec3.ofCoords x)).coords, (q.motion.toLocal (Vec3.ofCoords y)).coords, ?_, ?_, ?_⟩
  · rw [← hpose, ← Vec3.toVec_ofCoords, toCamera_toVec, Vec3.toVec_eq]
  · rw [← hpose, ← Vec3.toVec_ofCoords, toCamera_toVec, Vec3.toVec_eq]
  · rw [← Vec3.norm_sub_eq, hdistance, Vec3.norm_sub_eq, Vec3.coords_ofCoords, Vec3.coords_ofCoords]

/-- **The exponential of a vector and rotations.** It keeps the vector, and that of the opposite vector is its
transpose. From the small angle on it is a rotation; below, its product with its transpose is too long across the
vector, by less than a ten-billionth in every entry. Where it is a rotation, or the vector is zero, points keep
their distance in the coordinates of a camera that it turns. -/
theorem rotation_orthogonal (w : Fin 3 → ℝ) : ∃ R N : Mat3 ℝ,
    (ofVec (Vec.ofCoords w)).rotation = .ok R ∧ (ofVec (Vec.ofCoords (-w))).rotation = .ok N ∧
    N.matrix = R.matrixᵀ ∧ R.matrix *ᵥ w = w ∧
    (1e-5 ≤ √(∑ i, w i ^ 2) →
      R.matrixᵀ * R.matrix = 1 ∧ R.matrix.det = 1) ∧
    (√(∑ i, w i ^ 2) < 1e-5 →
      R.matrixᵀ * R.matrix - 1 = (w ⬝ᵥ w) • 1 - vecMulVec w w ∧
        ∀ i j, |(R.matrixᵀ * R.matrix - 1) i j| < 1e-10) ∧
    (1e-5 ≤ √(∑ i, w i ^ 2) ∨ w = 0 → ∀ t x y : Fin 3 → ℝ, ∃ a b : Fin 3 → ℝ,
      toCamera (ofVec (Vec.ofCoords (Fin.append t w))) (ofVec (Vec.ofCoords x)) = .ok (ofVec (Vec.ofCoords a)) ∧
      toCamera (ofVec (Vec.ofCoords (Fin.append t w))) (ofVec (Vec.ofCoords y)) = .ok (ofVec (Vec.ofCoords b)) ∧
      √(∑ i, (a i - b i) ^ 2) = √(∑ i, (x i - y i) ^ 2)) := by
  have hcoords := Vec3.coords_ofCoords w
  have hneg : Vec3.ofCoords (-w) = -Vec3.ofCoords w := rfl
  refine ⟨Rotation.exp (Vec3.ofCoords w), Rotation.exp (Vec3.ofCoords (-w)), ?_, ?_, ?_, ?_, fun h => ?_,
    fun h => ?_, fun h t x y => ?_⟩
  · rw [← Vec3.toVec_ofCoords, rotation_toVec]
  · rw [← Vec3.toVec_ofCoords, rotation_toVec]
  · rw [hneg, Rotation.exp_neg, Mat3.matrix_transpose]
  · have hkeeps := congrArg Vec3.coords (Rotation.exp_mulVec_self (Vec3.ofCoords w))
    rwa [Mat3.coords_mulVec, hcoords] at hkeeps
  · exact Rotation.transpose_mul_exp_of_exact (.inr (Vec3.norm_ofCoords w ▸ h))
  · rw [← Vec3.norm_ofCoords] at h
    refine ⟨?_, Rotation.abs_transpose_mul_exp_sub_one_lt h⟩
    rw [Rotation.transpose_mul_exp_of_lt h, Mat3.matrix_across, hcoords]
  · refine toCamera_isometry ?_ t x y
    rcases h with h | rfl
    · exact .inr (Vec3.norm_ofCoords w ▸ h)
    · exact .inl rfl

/-- The vector of length three along the coordinates one, two and two has a rotation as its exponential. -/
theorem rotation_orthogonal_three : ∃ R : Mat3 ℝ, 1e-5 ≤ √(∑ i, (![1, 2, 2] : Fin 3 → ℝ) i ^ 2) ∧
    (ofVec (Vec.ofCoords ![1, 2, 2])).rotation = .ok R ∧
    R.matrixᵀ * R.matrix = 1 ∧ R.matrix.det = 1 ∧
    R.matrix *ᵥ ![1, 2, 2] = ![1, 2, 2] ∧
    ∃ a b : Fin 3 → ℝ,
      toCamera (ofVec (Vec.ofCoords (Fin.append ![7, 8, 9] ![1, 2, 2]))) (ofVec (Vec.ofCoords ![3, 4, 0])) =
        .ok (ofVec (Vec.ofCoords a)) ∧
      toCamera (ofVec (Vec.ofCoords (Fin.append ![7, 8, 9] ![1, 2, 2]))) (ofVec (Vec.ofCoords ![0, 0, 0])) =
        .ok (ofVec (Vec.ofCoords b)) ∧ √(∑ i, (a i - b i) ^ 2) = 5 := by
  have hlength : (1e-5 : ℝ) ≤ √(∑ i, (![1, 2, 2] : Fin 3 → ℝ) i ^ 2) := by
    refine Real.le_sqrt_of_sq_le ?_
    simp only [Fin.sum_univ_three, Matrix.cons_val]
    norm_num
  obtain ⟨R, N, hR, -, -, hkeeps, hrotation, -, hdistance⟩ := rotation_orthogonal ![1, 2, 2]
  obtain ⟨a, b, ha, hb, hab⟩ := hdistance (.inl hlength) ![7, 8, 9] ![3, 4, 0] ![0, 0, 0]
  refine ⟨R, hlength, hR, (hrotation hlength).1, (hrotation hlength).2, hkeeps, a, b, ha, hb, hab.trans ?_⟩
  have hfive : (5 : ℝ) = √(5 ^ 2) := (Real.sqrt_sq (by norm_num)).symm
  rw [Fin.sum_univ_three, hfive]
  simp only [Matrix.cons_val]
  norm_num

end Tensor
end BundleAdjustment
