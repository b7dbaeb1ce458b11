import BundleAdjustment.Proofs.Geometry.Logarithm

/-!
Steps of a pose.

A tangent step from the left is the composition of two motions, which is then written as a pose again.
The position of that pose is exact. Its rotation is the composed one but for a millionth in each entry,
as long as the composed one stays away from half a turn (`Tensor.retract_composes`): there the logarithm
multiplies an antisymmetric part that vanishes by a factor that the regulariser keeps finite, and at half
a turn it loses the rotation (`Tensor.retract_halfTurn`).
-/
namespace BundleAdjustment
open Real

/-! ### Products of rotations -/

namespace Mat3

theorem get_mul (A B : Mat3 ℝ) (i j : Nat) :
    (A.mul B).get i j = A.get i 0 * B.get 0 j + A.get i 1 * B.get 1 j + A.get i 2 * B.get 2 j := by
  rcases i with _ | _ | i <;> rcases j with _ | _ | j <;>
    simp [mul, mulVec, transpose, Vec3.dot, get, Vec3.get] <;> ring

end Mat3

namespace Rotation

/-- The matrices of two quaternions that are longer than one, less what they are longer by, multiply to nearly the
matrix of the quaternions' product at length one. -/
theorem mul_within_ofQuaternion {A B : Mat3 ℝ} {q₁ p₁ q₂ p₂ : Quaternion ℝ}
    (hA : A = Mat3.ofQuaternion q₁ - Mat3.ofQuaternion p₁) (hq₁ : Quaternion.normSq q₁ = 1 + Quaternion.normSq p₁)
    (hB : B = Mat3.ofQuaternion q₂ - Mat3.ofQuaternion p₂) (hq₂ : Quaternion.normSq q₂ = 1 + Quaternion.normSq p₂) :
    (A.mul B).Within
      (2 * Quaternion.normSq p₁ + 2 * Quaternion.normSq p₂ + 4 * (Quaternion.normSq p₁ * Quaternion.normSq p₂))
      ((Mat3.ofQuaternion (q₁ * q₂)).scale (Quaternion.normSq (q₁ * q₂))⁻¹) := by
  have hnonneg₁ : 0 ≤ Quaternion.normSq p₁ := Quaternion.normSq_nonneg
  have hnonneg₂ : 0 ≤ Quaternion.normSq p₂ := Quaternion.normSq_nonneg
  obtain ⟨n, hn⟩ : ∃ n, n = Quaternion.normSq (q₁ * q₂) := ⟨_, rfl⟩
  have hproduct : n = (1 + Quaternion.normSq p₁) * (1 + Quaternion.normSq p₂) := by
    rw [hn, map_mul, hq₁, hq₂]
  have hone : 1 ≤ n := by
    rw [hproduct]
    nlinarith
  intro i j
  have hdiff : (A.mul B).get i j - ((Mat3.ofQuaternion (q₁ * q₂)).scale n⁻¹).get i j =
      (Mat3.ofQuaternion (q₁ * q₂)).get i j * (1 - n⁻¹) - (Mat3.ofQuaternion (p₁ * q₂)).get i j -
        (Mat3.ofQuaternion (q₁ * p₂)).get i j + (Mat3.ofQuaternion (p₁ * p₂)).get i j := by
    simp only [hA, hB, Mat3.ofQuaternion_mul, Mat3.get_mul, Mat3.get_sub, Mat3.get_scale]
    ring
  have hbound : ∀ p q : Quaternion ℝ,
      |(Mat3.ofQuaternion (p * q)).get i j| ≤ Quaternion.normSq p * Quaternion.normSq q := fun p q =>
    (Mat3.abs_get_ofQuaternion_le _ i j).trans_eq (map_mul ..)
  have hscaled : |(Mat3.ofQuaternion (q₁ * q₂)).get i j * (1 - n⁻¹)| ≤ n - 1 := by
    have hle : 0 ≤ 1 - n⁻¹ := sub_nonneg.mpr (inv_le_one_of_one_le₀ hone)
    have hentry : |(Mat3.ofQuaternion (q₁ * q₂)).get i j| ≤ n := hn ▸ Mat3.abs_get_ofQuaternion_le _ i j
    calc |(Mat3.ofQuaternion (q₁ * q₂)).get i j * (1 - n⁻¹)| ≤ n * (1 - n⁻¹) := by
          rw [abs_mul, abs_of_nonneg hle]
          exact mul_le_mul_of_nonneg_right hentry hle
      _ = n - 1 := by rw [mul_sub, mul_one, mul_inv_cancel₀ (by linarith)]
  rw [← hn, hdiff]
  refine (abs_add_le_of_le (abs_sub_le_of_le (abs_sub_le_of_le hscaled (hbound p₁ q₂)) (hbound q₁ p₂))
    (hbound p₁ p₂)).trans_eq ?_
  rw [hproduct, hq₁, hq₂]
  ring

/-- The product of two exponentials is the matrix of a quaternion of length one, but for what the first-order
rotations leave out. -/
theorem exp_mul_exp (d w : Vec3 ℝ) : ∃ q : Quaternion ℝ, Quaternion.normSq q = 1 ∧
    ((exp d).mul (exp w)).Within entryError (Mat3.ofQuaternion q) ∧
    (Exact d → Exact w → (exp d).mul (exp w) = Mat3.ofQuaternion q) := by
  obtain ⟨q₁, p₁, hd, hq₁, hp₁, hexact₁⟩ := exp_eq_ofQuaternion d
  obtain ⟨q₂, p₂, hw, hq₂, hp₂, hexact₂⟩ := exp_eq_ofQuaternion w
  have hnonneg₁ : 0 ≤ Quaternion.normSq p₁ := Quaternion.normSq_nonneg
  have hnonneg₂ : 0 ≤ Quaternion.normSq p₂ := Quaternion.normSq_nonneg
  have hclose := mul_within_ofQuaternion hd hq₁ hw hq₂
  have hpos : 0 < Quaternion.normSq (q₁ * q₂) := by
    rw [map_mul, hq₁, hq₂]
    positivity
  have hsq : (√(Quaternion.normSq (q₁ * q₂)))⁻¹ ^ 2 = (Quaternion.normSq (q₁ * q₂))⁻¹ := by
    rw [inv_pow, Real.sq_sqrt hpos.le]
  rw [← hsq, ← Mat3.ofQuaternion_smul] at hclose
  refine ⟨_, ?_, hclose.mono ?_, fun h₁ h₂ => ?_⟩
  · rw [Quaternion.normSq_smul, hsq, inv_mul_cancel₀ hpos.ne']
  · rw [entryError]
    rw [smallAngle_eq] at hp₁ hp₂
    nlinarith [mul_le_mul hp₁ hp₂ hnonneg₂ (by norm_num)]
  · rw [hexact₁ h₁, hexact₂ h₂, map_zero] at hclose
    refine Mat3.ext_get fun i j => sub_eq_zero.mp (abs_nonpos_iff.mp ((hclose i j).trans_eq ?_))
    norm_num

/-- The exponential of the logarithm of a product of two exponentials is the product, but for a millionth in each
entry, if its angle is at most three, or, for two rotations, not within the small angle of half a turn. -/
theorem exp_log_mul (d w : Vec3 ℝ) (h : angleOfTrace ((exp d).mul (exp w)).trace ≤ 3 ∨
      Exact d ∧ Exact w ∧ angleOfTrace ((exp d).mul (exp w)).trace ≤ π - smallAngle) :
    (exp (log ((exp d).mul (exp w)))).Within 1e-6 ((exp d).mul (exp w)) := by
  obtain ⟨q, hq, hclose, hexact⟩ := exp_mul_exp d w
  obtain ⟨θ, a, h₀, hπ, ha, hturn⟩ := Mat3.exists_turn hq
  rw [hturn] at hclose hexact
  rcases h with h | ⟨hd, hw, h⟩
  · exact exp_log_near ha h₀ hπ hclose h
  · rw [hexact hd hw] at h ⊢
    rw [angleOfTrace_turn ha h₀ hπ] at h
    exact exp_log_turn ha h₀ h

end Rotation

/-! ### Steps -/

/-- Close rotations take a point to close local coordinates. -/
theorem Mat3.Within.transpose_mulVec {c : ℝ} {A B : Mat3 ℝ} (h : A.Within c B) (v : Vec3 ℝ) (i : Nat) :
    |(A.transpose.mulVec v).get i - (B.transpose.mulVec v).get i| ≤ c * (|v.x| + |v.y| + |v.z|) := by
  have hentry : ∀ j (x : ℝ), |(A.get j i - B.get j i) * x| ≤ c * |x| := fun j x => by
    rw [abs_mul]
    exact mul_le_mul_of_nonneg_right (h j i) (abs_nonneg x)
  have hdiff : (A.transpose.mulVec v).get i - (B.transpose.mulVec v).get i =
      (A.get 0 i - B.get 0 i) * v.x + (A.get 1 i - B.get 1 i) * v.y + (A.get 2 i - B.get 2 i) * v.z := by
    rcases i with _ | _ | i <;> simp only [transpose, mulVec, Vec3.dot, get, Vec3.get] <;> ring
  rw [hdiff, mul_add, mul_add]
  exact abs_add_le_of_le (abs_add_le_of_le (hentry 0 v.x) (hentry 1 v.y)) (hentry 2 v.z)

theorem Vec3.coords_eq_get (a : Vec3 ℝ) (i : Fin 3) : a.coords i = a.get i := by
  fin_cases i <;> rfl

/-- About an axis, by an angle that is not below the small one, a pose is turned by that angle. -/
theorem Pose.rotation_scale (t : Vec3 ℝ) {a : Vec3 ℝ} {φ : ℝ} (ha : a.dot a = 1) (h : Rotation.smallAngle ≤ φ) :
    (⟨t, a.scale φ⟩ : Pose ℝ).motion.rotation = Mat3.turn φ a :=
  Rotation.exp_scale ha h

/-- A step of nothing from half a turn about any axis gives a pose that is not turned. -/
theorem Pose.retract_identity_of_halfTurn (t : Vec3 ℝ) {a : Vec3 ℝ} (ha : a.dot a = 1) :
    (⟨t, a.scale π⟩ : Pose ℝ).retract identity = ⟨t, Vec3.zero⟩ := by
  have hsmall : Rotation.smallAngle ≤ π := Rotation.smallAngle_le_one.trans (by linarith [pi_gt_three])
  have hlog : Rotation.log (Mat3.turn π a) = Vec3.zero := by
    rw [Rotation.log_eq, Mat3.vee_turn, sin_pi]
    simp [Vec3.scale, Vec3.zero]
  rw [retract, RigidMotion.identity_compose, RigidMotion.pose, rotation_scale t ha hsmall, hlog]
  rfl

/-- The rotations of a pose and of a step compose to one that is away from half a turn. -/
def Pose.Composable (q d : Pose ℝ) : Prop :=
  Rotation.angleOfTrace (d.motion.rotation.mul q.motion.rotation).trace ≤ 3.0 ∨
    Rotation.Exact d.axisAngle ∧ Rotation.Exact q.axisAngle ∧
      Rotation.angleOfTrace (d.motion.rotation.mul q.motion.rotation).trace ≤ π - Rotation.smallAngle

theorem Pose.Composable.rotation_within {q d : Pose ℝ} (h : q.Composable d) :
    (q.retract d).motion.rotation.Within 1e-6 (d.motion.rotation.mul q.motion.rotation) :=
  Rotation.exp_log_mul d.axisAngle q.axisAngle (h.imp_left fun hangle => hangle.trans (by norm_num))

theorem dot_firstAxis : (⟨1, 0, 0⟩ : Vec3 ℝ).dot ⟨1, 0, 0⟩ = 1 := by
  simp [Vec3.dot]

theorem Pose.ofCoords_firstAxis (φ : ℝ) :
    (Pose.ofCoords ![0, 0, 0, φ, 0, 0] : Pose ℝ) = ⟨Vec3.zero, (⟨1, 0, 0⟩ : Vec3 ℝ).scale φ⟩ := by
  simp [Pose.ofCoords, Vec3.scale, Vec3.zero]

/-- A step of nothing from a turn about the first axis composes to the turn. -/
theorem Pose.firstAxis_mul {φ : ℝ} (h : 1 ≤ φ) :
    (Pose.ofCoords 0).motion.rotation.mul (Pose.ofCoords ![0, 0, 0, φ, 0, 0]).motion.rotation =
      Mat3.turn φ ⟨1, 0, 0⟩ := by
  rw [ofCoords_firstAxis, ← rotation_scale Vec3.zero dot_firstAxis (Rotation.smallAngle_le_one.trans h)]
  exact congrArg RigidMotion.rotation (RigidMotion.identity_compose _)

namespace Tensor

/-- A step from the left composes motions. The position of the new pose is that of the composed motion. Away
from half a turn its rotation is the composed one but for a millionth in each entry, it takes points where the
composed motion takes them, and a step of nothing leaves the motion as it was. -/
theorem retract_composes (v δ : Fin 6 → ℝ) : ∃ (T D N : RigidMotion ℝ) (q : Pose ℝ),
    (ofVec (Vec.ofCoords v)).motion = .ok T ∧ (ofVec (Vec.ofCoords δ)).motion = .ok D ∧
    (ofVec (Vec.ofCoords v)).retract (ofVec (Vec.ofCoords δ)) = .ok q ∧ (ofVec q.toVec).motion = .ok N ∧
    N.shift = D.rotation.mulVec T.shift + D.shift ∧
    ((Pose.ofCoords v).Composable (Pose.ofCoords δ) →
      N.rotation.Within 1e-6 (D.rotation.mul T.rotation) ∧
      (∀ p : Fin 3 → ℝ, ∃ a b : Fin 3 → ℝ,
        toCamera (ofVec q.toVec) (ofVec (Vec.ofCoords p)) = .ok (ofVec (Vec.ofCoords a)) ∧
        toCameraAfter (ofVec (Vec.ofCoords v)) (ofVec (Vec.ofCoords δ)) (ofVec (Vec.ofCoords p)) =
          .ok (ofVec (Vec.ofCoords b)) ∧
        ∀ i, |a i - b i| ≤ 1e-6 * ∑ j, |p j - N.shift.coords j|) ∧
      (δ = 0 → N.shift = T.shift ∧ N.rotation.Within 1e-6 T.rotation)) := by
  obtain ⟨q, hq⟩ : ∃ q, q = (Pose.ofCoords v).retract (Pose.ofCoords δ) := ⟨_, rfl⟩
  have hshift : q.motion.shift = ((Pose.ofCoords δ).motion.compose (Pose.ofCoords v).motion).shift := by
    rw [hq]
    rfl
  refine ⟨(Pose.ofCoords v).motion, (Pose.ofCoords δ).motion, q.motion, q, ?_, ?_, ?_, motion_toVec q, hshift,
    fun h => ?_⟩
  · rw [← Pose.toVec_ofCoords, motion_toVec]
  · rw [← Pose.toVec_ofCoords, motion_toVec]
  · rw [← Pose.toVec_ofCoords, ← Pose.toVec_ofCoords, retract_toVec, hq]
  · have hrotation := h.rotation_within
    rw [← hq] at hrotation
    refine ⟨hrotation, fun p => ⟨(q.motion.toLocal (Vec3.ofCoords p)).coords,
      (((Pose.ofCoords δ).motion.compose (Pose.ofCoords v).motion).toLocal (Vec3.ofCoords p)).coords, ?_, ?_,
      fun i => ?_⟩, fun hδ => ?_⟩
    · rw [← Vec3.toVec_ofCoords, toCamera_toVec, Vec3.toVec_eq]
    · rw [← Pose.toVec_ofCoords, ← Pose.toVec_ofCoords, ← Vec3.toVec_ofCoords, toCameraAfter_toVec, Vec3.toVec_eq]
    · have hclose := hrotation.transpose_mulVec (Vec3.ofCoords p - q.motion.shift) i
      rw [Fin.sum_univ_three, Vec3.coords_eq_get, Vec3.coords_eq_get, RigidMotion.toLocal, RigidMotion.toLocal,
        ← hshift]
      exact hclose
    · have hpose : (Pose.ofCoords 0 : Pose ℝ) = .identity := rfl
      have hcompose := RigidMotion.identity_compose (Pose.ofCoords v).motion
      rw [hδ, hpose] at hshift hrotation
      rw [hcompose] at hshift
      have hmul : (Pose.identity.motion.rotation.mul (Pose.ofCoords v).motion.rotation) =
        (Pose.ofCoords v).motion.rotation := congrArg RigidMotion.rotation hcompose
      rw [hmul] at hrotation
      exact ⟨hshift, hrotation⟩

/-- A step of nothing from a quarter turn gives the quarter turn. -/
theorem retract_composes_quarterTurn : ∃ (T N : RigidMotion ℝ) (q : Pose ℝ),
    (ofVec (Vec.ofCoords ![0, 0, 0, π / 2, 0, 0])).motion = .ok T ∧
    (ofVec (Vec.ofCoords ![0, 0, 0, π / 2, 0, 0])).retract (ofVec (Vec.ofCoords (0 : Fin 6 → ℝ))) = .ok q ∧
    (ofVec q.toVec).motion = .ok N ∧ N.shift = T.shift ∧ N.rotation.Within 1e-6 T.rotation := by
  obtain ⟨T, D, N, q, hT, -, hq, hN, -, h⟩ := retract_composes ![0, 0, 0, π / 2, 0, 0] 0
  have hcomposable : (Pose.ofCoords ![0, 0, 0, π / 2, 0, 0]).Composable (Pose.ofCoords 0) := by
    refine .inl ?_
    rw [Pose.firstAxis_mul (by linarith [pi_gt_three]),
      Rotation.angleOfTrace_turn dot_firstAxis (by positivity) (by linarith [pi_pos])]
    linarith [pi_lt_d2]
  exact ⟨T, N, q, hT, hq, hN, (h hcomposable).2.2 rfl⟩

/-- At half a turn the logarithm loses the rotation: a step of nothing leaves a pose that is not turned. -/
theorem retract_halfTurn : ∃ (T D N : RigidMotion ℝ) (q : Pose ℝ),
    (ofVec (Vec.ofCoords ![0, 0, 0, π, 0, 0])).motion = .ok T ∧
    (ofVec (Vec.ofCoords (0 : Fin 6 → ℝ))).motion = .ok D ∧
    (ofVec (Vec.ofCoords ![0, 0, 0, π, 0, 0])).retract (ofVec (Vec.ofCoords (0 : Fin 6 → ℝ))) = .ok q ∧
    (ofVec q.toVec).motion = .ok N ∧ ¬ N.rotation.Within 1e-6 (D.rotation.mul T.rotation) := by
  refine ⟨(Pose.ofCoords ![0, 0, 0, π, 0, 0]).motion, (Pose.ofCoords 0).motion, Pose.identity.motion, .identity,
    ?_, ?_, ?_, motion_toVec _, fun h => ?_⟩
  · rw [← Pose.toVec_ofCoords, motion_toVec]
  · rw [← Pose.toVec_ofCoords, motion_toVec]
  · rw [← Pose.toVec_ofCoords, ← Pose.toVec_ofCoords, retract_toVec, Pose.ofCoords_firstAxis]
    exact congrArg Except.ok (Pose.retract_identity_of_halfTurn _ dot_firstAxis)
  · -- The second diagonal entry is one, and was minus one.
    have hentry := h 1 1
    rw [Pose.firstAxis_mul (by linarith [pi_gt_three]), Pose.motion_identity, Mat3.get_turn] at hentry
    norm_num [Mat3.one, Mat3.get, Vec3.get] at hentry

end Tensor
end BundleAdjustment
