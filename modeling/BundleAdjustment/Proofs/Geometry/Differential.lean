import BundleAdjustment.Proofs.Geometry.Turns
import BundleAdjustment.Proofs.Observation.Prediction
import Mathlib.Analysis.Calculus.FDeriv.Mul
import Mathlib.Analysis.Calculus.FDeriv.Pi
import Mathlib.Analysis.Calculus.Deriv.Inv
import Mathlib.Topology.Algebra.Module.FiniteDimension

/-!
The derivatives of a projection.

Over the reals a pixel is a function of a tangent step, a point and a calibration, which the program
computes with arrays (`Tensor.pixelAfter`). Near the step of nothing the rotation of the step is the
first-order one, so that the point in camera coordinates is its old value, a linear function of the step
and products of two numbers of the step (`hasFDerivAt_localAfter`). Through the division by the depth
(`hasFDerivAt_pixelOf`) that gives the derivatives which a projection holds (`project_derivatives`).
-/
namespace BundleAdjustment
open Matrix Topology

/-! ### Linear maps -/

noncomputable def linearMap {m n : Nat} (M : Matrix (Fin m) (Fin n) ℝ) : (Fin n → ℝ) →L[ℝ] Fin m → ℝ :=
  M.mulVecLin.toContinuousLinearMap

theorem linearMap_apply {m n : Nat} (M : Matrix (Fin m) (Fin n) ℝ) (x : Fin n → ℝ) :
    linearMap M x = M *ᵥ x := rfl

theorem linearMap_comp {l m n : Nat} (A : Matrix (Fin l) (Fin m) ℝ) (B : Matrix (Fin m) (Fin n) ℝ) :
    (linearMap A).comp (linearMap B) = linearMap (A * B) := by
  ext x : 1
  exact mulVec_mulVec x A B

/-- A product of two functions that vanish at a point has no derivative there. -/
theorem hasFDerivAt_mul_of_zeros {n : Nat} {f g : (Fin n → ℝ) → ℝ} {x : Fin n → ℝ}
    (hf : DifferentiableAt ℝ f x) (hg : DifferentiableAt ℝ g x) (hf₀ : f x = 0) (hg₀ : g x = 0) :
    HasFDerivAt (fun δ => f δ * g δ) (0 : (Fin n → ℝ) →L[ℝ] ℝ) x := by
  refine (hf.hasFDerivAt.mul hg.hasFDerivAt).congr_fderiv ?_
  rw [hf₀, hg₀, zero_smul, zero_smul, add_zero]

/-! ### The entries of a matrix of space -/

noncomputable def Mat3.matrix (A : Mat3 ℝ) : Matrix (Fin 3) (Fin 3) ℝ := A.toMat.matrix 3 3

theorem Mat3.coords_mulVec (A : Mat3 ℝ) (v : Vec3 ℝ) : (A.mulVec v).coords = A.matrix *ᵥ v.coords := by
  have hv : ∀ a : Vec3 ℝ, a.coords = a.toVec.coords 3 := fun a => by
    rw [Vec3.toVec_eq, Vec.coords_ofCoords]
  rw [hv, hv, ← Mat3.toMat_mulVec]
  exact Mat.coords_mulVec rfl rfl

theorem Mat3.matrix_transpose (A : Mat3 ℝ) : A.transpose.matrix = A.matrixᵀ := by
  ext i j
  fin_cases i <;> fin_cases j <;> rfl

theorem Mat3.hat_mulVec (a b : Vec3 ℝ) : (hat a).mulVec b = a.cross b := by
  simp only [hat, mulVec, Vec3.dot, Vec3.cross, Vec3.mk.injEq]
  exact ⟨by ring, by ring, by ring⟩

theorem Mat3.transpose_mul_mulVec (A B : Mat3 ℝ) (v : Vec3 ℝ) :
    (A.mul B).transpose.mulVec v = B.transpose.mulVec (A.transpose.mulVec v) := by
  simp only [mul, transpose, mulVec, Vec3.dot, Vec3.mk.injEq]
  exact ⟨by ring, by ring, by ring⟩

/-! ### The point in camera coordinates -/

/-- A point in the coordinates of a camera after a tangent step. -/
noncomputable def localAfter (pose : Pose ℝ) (δ : Fin 6 → ℝ) (q : Fin 3 → ℝ) : Fin 3 → ℝ :=
  (((Pose.ofCoords δ).motion.compose pose.motion).toLocal (Vec3.ofCoords q)).coords

/-- The identity beside the negative cross product with a point: what a step takes from the point. -/
noncomputable def stepMatrix (p : Vec3 ℝ) : Matrix (Fin 3) (Fin 6) ℝ :=
  Matrix.of fun i => Fin.append ((1 : Matrix (Fin 3) (Fin 3) ℝ) i) (-(Mat3.hat p).matrix i)

theorem stepMatrix_mulVec (p : Vec3 ℝ) (δ : Fin 6 → ℝ) : stepMatrix p *ᵥ δ =
    ![δ 0, δ 1, δ 2] - (Mat3.hat p).matrix *ᵥ ![δ 3, δ 4, δ 5] := by
  ext i
  have hsplit : ∀ f : Fin 6 → ℝ,
      ∑ j, f j = ∑ j : Fin 3, f (Fin.castAdd 3 j) + ∑ j : Fin 3, f (Fin.natAdd 3 j) :=
    fun f => Fin.sum_univ_add (a := 3) (b := 3) f
  rw [mulVec, dotProduct, hsplit, Pi.sub_apply, mulVec, dotProduct, sub_eq_add_neg, ← Finset.sum_neg_distrib]
  refine congrArg₂ (· + ·) ?_ (Finset.sum_congr rfl fun j _ => ?_)
  · simp only [stepMatrix, Matrix.of_apply, Fin.append_left, Matrix.one_apply, ite_mul, one_mul, zero_mul,
      Finset.sum_ite_eq, Finset.mem_univ, if_true]
    fin_cases i <;> rfl
  · rw [stepMatrix, Matrix.of_apply, Fin.append_right, Pi.neg_apply, neg_mul]
    fin_cases j <;> rfl

/-- Near the step of nothing its rotation is the first-order one. -/
theorem eventually_exp : ∀ᶠ δ : Fin 6 → ℝ in 𝓝 0,
    (Pose.ofCoords δ).motion.rotation = Mat3.one + Mat3.hat ⟨δ 3, δ 4, δ 5⟩ := by
  have hcont : ContinuousAt (fun δ : Fin 6 → ℝ => (⟨δ 3, δ 4, δ 5⟩ : Vec3 ℝ).norm) 0 := by
    simp only [Vec3.norm_eq, Vec3.dot]
    fun_prop
  have hzero : (⟨(0 : Fin 6 → ℝ) 3, (0 : Fin 6 → ℝ) 4, (0 : Fin 6 → ℝ) 5⟩ : Vec3 ℝ).norm <
      Rotation.smallAngle := by
    rw [Vec3.norm_eq]
    simpa [Vec3.dot] using Rotation.smallAngle_pos
  filter_upwards [hcont.eventually_lt continuousAt_const hzero] with δ hδ
  exact if_pos hδ

/-- The part of a step that is of second order: its turn across what it does to the position. -/
noncomputable def secondOrder (t : Vec3 ℝ) (δ : Fin 6 → ℝ) : Fin 3 → ℝ :=
  ((Pose.ofCoords δ).axisAngle.cross ((Pose.ofCoords δ).position + (Pose.ofCoords δ).axisAngle.cross t)).coords

theorem hasFDerivAt_secondOrder (t : Vec3 ℝ) :
    HasFDerivAt (secondOrder t) (0 : (Fin 6 → ℝ) →L[ℝ] Fin 3 → ℝ) 0 := by
  have hmul : ∀ {f g : (Fin 6 → ℝ) → ℝ}, DifferentiableAt ℝ f 0 → DifferentiableAt ℝ g 0 → f 0 = 0 →
      g 0 = 0 → HasFDerivAt (fun δ => f δ * g δ) (0 : (Fin 6 → ℝ) →L[ℝ] ℝ) 0 := hasFDerivAt_mul_of_zeros
  refine hasFDerivAt_pi'.mpr fun i => ?_
  -- A component is the difference of two products, and every factor vanishes at the step of nothing.
  rw [ContinuousLinearMap.comp_zero, ← sub_zero (0 : (Fin 6 → ℝ) →L[ℝ] ℝ)]
  fin_cases i
  all_goals
    refine HasFDerivAt.sub (hmul ?_ ?_ ?_ ?_) (hmul ?_ ?_ ?_ ?_) <;>
      simp only [Pose.ofCoords, Vec3.add_eq, Vec3.cross, Pi.zero_apply, zero_mul, sub_zero, add_zero] <;> fun_prop

/-- With a first-order rotation a point in camera coordinates is its old value, less the step, and a part
of second order. -/
theorem localAfter_eq (pose : Pose ℝ) (p : Vec3 ℝ) {δ : Fin 6 → ℝ}
    (h : (Pose.ofCoords δ).motion.rotation = Mat3.one + Mat3.hat ⟨δ 3, δ 4, δ 5⟩) :
    localAfter pose δ p.coords = pose.motion.rotation.matrixᵀ *ᵥ
      ((p - pose.position).coords + -stepMatrix p *ᵥ δ + secondOrder pose.position δ) := by
  have hhat : (Mat3.hat p).matrix *ᵥ ![δ 3, δ 4, δ 5] = (p.cross ⟨δ 3, δ 4, δ 5⟩).coords := by
    rw [← Mat3.hat_mulVec, Mat3.coords_mulVec]
    rfl
  have hstep : (p - pose.position).coords + -stepMatrix p *ᵥ δ + secondOrder pose.position δ =
      ((Mat3.one + Mat3.hat ⟨δ 3, δ 4, δ 5⟩).transpose.mulVec (p -
        ((Mat3.one + Mat3.hat ⟨δ 3, δ 4, δ 5⟩).mulVec pose.position + (⟨δ 0, δ 1, δ 2⟩ : Vec3 ℝ)))).coords := by
    rw [neg_mulVec, stepMatrix_mulVec, hhat]
    ext i
    fin_cases i <;> simp [Vec3.coords, secondOrder, Pose.ofCoords, Vec3.cross, Vec3.add_eq, Vec3.sub_eq, Mat3.add_eq,
      Mat3.hat, Mat3.one, Mat3.mulVec, Mat3.transpose, Vec3.dot] <;> ring
  rw [hstep, ← Mat3.matrix_transpose, ← Mat3.coords_mulVec, ← Mat3.transpose_mul_mulVec, ← h]
  rfl

/-- The derivative of a point in camera coordinates by the step. -/
theorem hasFDerivAt_localAfter (pose : Pose ℝ) (p : Vec3 ℝ) :
    HasFDerivAt (fun δ => localAfter pose δ p.coords)
      (linearMap (-(pose.motion.rotation.matrixᵀ * stepMatrix p))) 0 := by
  have hinner : HasFDerivAt (fun δ => (p - pose.position).coords + -stepMatrix p *ᵥ δ +
      secondOrder pose.position δ) (linearMap (-stepMatrix p)) 0 := by
    refine ((((hasFDerivAt_const _ _).add (linearMap (-stepMatrix p)).hasFDerivAt).add
      (hasFDerivAt_secondOrder pose.position))).congr_fderiv ?_
    rw [zero_add, add_zero]
  have houter := (linearMap pose.motion.rotation.matrixᵀ).hasFDerivAt.comp (0 : Fin 6 → ℝ) hinner
  rw [linearMap_comp, Matrix.mul_neg] at houter
  exact houter.congr_of_eventuallyEq (eventually_exp.mono fun δ hδ => localAfter_eq pose p hδ)

theorem localAfter_zero (pose : Pose ℝ) (q : Fin 3 → ℝ) :
    localAfter pose 0 q = pose.motion.rotation.matrixᵀ *ᵥ (q - pose.position.coords) := by
  have hsub : q - pose.position.coords = (Vec3.ofCoords q - pose.position).coords := by
    ext i
    fin_cases i <;> rfl
  rw [hsub, ← Mat3.matrix_transpose, ← Mat3.coords_mulVec, ← Projection.localPoint_eq]
  rfl

/-- The derivative of a point in camera coordinates by the point, at the step of nothing. -/
theorem hasFDerivAt_localAfter_point (pose : Pose ℝ) (q : Fin 3 → ℝ) :
    HasFDerivAt (localAfter pose 0) (linearMap pose.motion.rotation.matrixᵀ) q := by
  have heq : localAfter pose 0 = fun q => pose.motion.rotation.matrixᵀ *ᵥ q -
      pose.motion.rotation.matrixᵀ *ᵥ pose.position.coords := by
    funext q
    rw [localAfter_zero, mulVec_sub]
  rw [heq]
  exact (linearMap pose.motion.rotation.matrixᵀ).hasFDerivAt.sub_const _

/-! ### The pixel -/

noncomputable def pixelOf (κ : Fin 5 → ℝ) (c : Fin 3 → ℝ) : Fin 2 → ℝ :=
  let p := Vec3.ofCoords c
  ![((Calibration.ofCoords κ).pixel (p.x / p.z) (p.y / p.z)).1,
    ((Calibration.ofCoords κ).pixel (p.x / p.z) (p.y / p.z)).2]

/-- The derivative of the pixel by the camera coordinates. -/
noncomputable def pixelMatrix (κ : Fin 5 → ℝ) (c : Fin 3 → ℝ) : Matrix (Fin 2) (Fin 3) ℝ :=
  Matrix.of ![(Projection.byLocal (Calibration.ofCoords κ) (Vec3.ofCoords c)).1.coords,
    (Projection.byLocal (Calibration.ofCoords κ) (Vec3.ofCoords c)).2.coords]

/-- The derivative of the pixel by the calibration. -/
noncomputable def calibrationMatrix (c : Fin 3 → ℝ) : Matrix (Fin 2) (Fin 5) ℝ :=
  let p := Vec3.ofCoords c
  !![p.x / p.z, 0, p.y / p.z, 1, 0; 0, p.y / p.z, 0, 0, 1]

theorem hasFDerivAt_ratio {c : Fin 3 → ℝ} (h : c 2 ≠ 0) (i : Fin 3) :
    HasFDerivAt (fun x : Fin 3 → ℝ => x i / x 2)
      ((c 2)⁻¹ • ContinuousLinearMap.proj i - (c i / c 2 / c 2) • ContinuousLinearMap.proj 2 :
        (Fin 3 → ℝ) →L[ℝ] ℝ) c := by
  have hcoord : ∀ i : Fin 3, HasFDerivAt (fun x : Fin 3 → ℝ => x i)
      (ContinuousLinearMap.proj i : (Fin 3 → ℝ) →L[ℝ] ℝ) c := fun i => hasFDerivAt_apply i c
  refine ((hcoord i).mul ((hasDerivAt_inv h).comp_hasFDerivAt c (hcoord 2))).congr_fderiv ?_
  ext x
  simp
  field_simp
  ring

theorem hasFDerivAt_pixelOf (κ : Fin 5 → ℝ) {c : Fin 3 → ℝ} (h : c 2 ≠ 0) :
    HasFDerivAt (pixelOf κ) (linearMap (pixelMatrix κ c)) c := by
  refine hasFDerivAt_pi'' fun i => ?_
  fin_cases i
  · refine ((((hasFDerivAt_ratio h 0).const_mul (κ 0)).add
      ((hasFDerivAt_ratio h 1).const_mul (κ 2))).add_const (κ 3)).congr_fderiv ?_
    ext x
    simp [linearMap_apply, pixelMatrix, dotProduct, Fin.sum_univ_three, Projection.byLocal,
      Calibration.ofCoords, Vec3.ofCoords, Vec3.coords]
    ring
  · refine (((hasFDerivAt_ratio h 1).const_mul (κ 1)).add_const (κ 4)).congr_fderiv ?_
    ext x
    simp [linearMap_apply, pixelMatrix, dotProduct, Fin.sum_univ_three, Projection.byLocal,
      Calibration.ofCoords, Vec3.ofCoords, Vec3.coords]
    ring

theorem pixelOf_eq (κ : Fin 5 → ℝ) (c : Fin 3 → ℝ) : pixelOf κ c = calibrationMatrix c *ᵥ κ := by
  ext i
  fin_cases i <;> simp [pixelOf, calibrationMatrix, Calibration.pixel, Calibration.ofCoords, Vec3.ofCoords, mulVec,
    dotProduct, Fin.sum_univ_five] <;> ring

theorem hasFDerivAt_pixelOf_calibration (κ : Fin 5 → ℝ) (c : Fin 3 → ℝ) :
    HasFDerivAt (fun κ => pixelOf κ c) (linearMap (calibrationMatrix c)) κ := by
  rw [show (fun κ => pixelOf κ c) = linearMap (calibrationMatrix c) from funext fun κ => pixelOf_eq κ c]
  exact (linearMap (calibrationMatrix c)).hasFDerivAt

/-! ### What a projection holds -/

/-- The matrix of given rows has given entries if the rows have. -/
theorem Mat.matrix_ofRows {m n : Nat} (rows : Fin m → List ℝ) (M : Matrix (Fin m) (Fin n) ℝ)
    (h : ∀ i, ∀ j : Fin n, (rows i).getD j 0 = M i j) : (Mat.ofRows n (List.ofFn rows)).matrix m n = M := by
  ext i j
  rw [Mat.matrix_apply, Mat.ofRows, Mat.get_ofFn (i.isLt.trans_eq (List.length_ofFn).symm) j.isLt, ← h]
  simp

namespace Projection
variable (T : RigidMotion ℝ) (p : Vec3 ℝ) (c : Fin 3 → ℝ) (κ : Fin 5 → ℝ)

theorem pixel_visible :
    (visible T p (Vec3.ofCoords c) (Calibration.ofCoords κ)).pixel = Vec.ofCoords (pixelOf κ c) := by
  refine Vec.eq_of_coords (n := 2) (Vec.size_ofFn _ _) (Vec.size_ofCoords _) (funext fun i => ?_)
  rw [Vec.coords_ofCoords]
  fin_cases i <;> rfl

theorem byCalibration_visible : (visible T p (Vec3.ofCoords c) (Calibration.ofCoords κ)).byCalibration.matrix 2 5 =
    calibrationMatrix c := by
  refine Mat.matrix_ofRows ![[c 0 / c 2, 0, c 1 / c 2, 1, 0], [0, c 1 / c 2, 0, 0, 1]] _ fun i j => ?_
  fin_cases i <;> fin_cases j <;> rfl

theorem byPoint_visible : (visible T p (Vec3.ofCoords c) (Calibration.ofCoords κ)).byPoint.matrix 2 3 =
    pixelMatrix κ c * T.rotation.matrixᵀ := by
  refine Mat.matrix_ofRows ![_, _] _ fun i j => ?_
  rw [mul_apply_eq_vecMul, vecMul_transpose]
  fin_cases i
  · refine Eq.trans ?_ (congrFun (Mat3.coords_mulVec T.rotation _) j)
    fin_cases j <;> rfl
  · refine Eq.trans ?_ (congrFun (Mat3.coords_mulVec T.rotation _) j)
    fin_cases j <;> rfl

/-- A row of the derivative by the point, times what a step takes from the point, is the row by the pose. -/
theorem vecMul_stepMatrix (g p : Vec3 ℝ) (j : Fin 6) :
    -(g.coords ᵥ* stepMatrix p) j = ((-g).toList ++ (g.cross p).toList).getD j 0 := by
  have hhat : ∀ i j : Fin 3, (Mat3.hat p).matrix i j = (Mat3.hat p).get i j := fun i j =>
    Mat.get_ofFn i.isLt j.isLt
  rw [vecMul, dotProduct, Fin.sum_univ_three]
  refine Fin.addCases (m := 3) (n := 3) (fun j => ?_) (fun j => ?_) j
  · simp only [stepMatrix, Matrix.of_apply, Fin.append_left, Matrix.one_apply]
    fin_cases j <;> simp [Vec3.coords, Vec3.toList, Vec3.neg_eq]
  · simp only [stepMatrix, Matrix.of_apply, Fin.append_right, Pi.neg_apply, hhat]
    fin_cases j <;> simp [Vec3.coords, Vec3.toList, Vec3.cross, Mat3.hat, Mat3.get, Vec3.get] <;> ring

theorem byPose_visible : (visible T p (Vec3.ofCoords c) (Calibration.ofCoords κ)).byPose.matrix 2 6 =
    -(pixelMatrix κ c * T.rotation.matrixᵀ * stepMatrix p) := by
  refine Mat.matrix_ofRows ![_, _] _ fun i j => ?_
  have hrow : ∀ d : Vec3 ℝ,
      ((-T.rotation.mulVec d).toList ++ ((T.rotation.mulVec d).cross p).toList).getD j 0 =
        -((T.rotation.matrix *ᵥ d.coords) ᵥ* stepMatrix p) j := fun d => by
    rw [← Mat3.coords_mulVec, vecMul_stepMatrix]
  rw [Matrix.neg_apply, mul_apply_eq_vecMul, mul_apply_eq_vecMul, vecMul_transpose]
  fin_cases i
  · exact hrow _
  · exact hrow _

end Projection

/-! ### The derivatives -/

namespace Tensor

theorem perspective_ofCoords (κ : Fin 5 → ℝ) (c : Fin 3 → ℝ) :
    perspective (ofVec (Vec.ofCoords κ)) (ofVec (Vec.ofCoords c)) =
      .ok (ofVec (Vec.ofCoords (pixelOf κ c))) := by
  have hpixel : Vec.ofCoords (pixelOf κ c) = ⟨#[pixelOf κ c 0, pixelOf κ c 1]⟩ := by
    simp [Vec.ofCoords, Array.ofFn_succ]
  rw [← Vec3.toVec_ofCoords, perspective_toVec, hpixel]
  rfl

theorem pixelAfter_ofCoords (v δ : Fin 6 → ℝ) (q : Fin 3 → ℝ) (κ : Fin 5 → ℝ) :
    pixelAfter (ofVec (Vec.ofCoords v)) (ofVec (Vec.ofCoords δ)) (ofVec (Vec.ofCoords q))
      (ofVec (Vec.ofCoords κ)) =
      .ok (ofVec (Vec.ofCoords (pixelOf κ (localAfter (Pose.ofCoords v) δ q)))) := by
  rw [pixelAfter, ← Pose.toVec_ofCoords, ← Pose.toVec_ofCoords, ← Vec3.toVec_ofCoords, toCameraAfter_toVec,
    ok_bind, Vec3.toVec_eq, perspective_ofCoords]
  rfl

theorem project_ofCoords (v : Fin 6 → ℝ) (p : Fin 3 → ℝ) (κ : Fin 5 → ℝ) :
    (ofVec (Vec.ofCoords v)).project (ofVec (Vec.ofCoords p)) (ofVec (Vec.ofCoords κ)) =
      .ok (Projection.ofPoint (Pose.ofCoords v) (Vec3.ofCoords p) (Calibration.ofCoords κ)) :=
  project_ofVec (Vec.size_ofCoords v) (Vec.size_ofCoords p) (Vec.size_ofCoords κ)

end Tensor

theorem Projection.minDepth_pos : (0 : ℝ) < minDepth := by
  have h : (0 : ℝ) < (1e-6 : ℝ) := by norm_num
  exact h

/-- A projection is the pixel of a function of a tangent step, a point and a calibration, and its derivatives
at the step of nothing. -/
structure Projection.Differentiates (P : Projection ℝ)
    (F : (Fin 6 → ℝ) → (Fin 3 → ℝ) → (Fin 5 → ℝ) → Fin 2 → ℝ) (p : Fin 3 → ℝ) (κ : Fin 5 → ℝ) : Prop where
  pixel : P.pixel = Vec.ofCoords (F 0 p κ)
  byPose : HasFDerivAt (fun δ => F δ p κ) (linearMap (P.byPose.matrix 2 6)) 0
  byPoint : HasFDerivAt (fun q => F 0 q κ) (linearMap (P.byPoint.matrix 2 3)) p
  byCalibration : HasFDerivAt (F 0 p) (linearMap (P.byCalibration.matrix 2 5)) κ

theorem Projection.differentiates_visible (pose : Pose ℝ) (p : Fin 3 → ℝ) (κ : Fin 5 → ℝ)
    (h : localAfter pose 0 p 2 ≠ 0) :
    (visible pose.motion (Vec3.ofCoords p) (Vec3.ofCoords (localAfter pose 0 p))
      (Calibration.ofCoords κ)).Differentiates (fun δ q κ => pixelOf κ (localAfter pose δ q)) p κ := by
  have hpixel := hasFDerivAt_pixelOf κ h
  refine ⟨pixel_visible .., ?_, ?_, ?_⟩
  · rw [byPose_visible, Matrix.mul_assoc, ← Matrix.mul_neg, ← linearMap_comp]
    exact hpixel.comp (0 : Fin 6 → ℝ) (hasFDerivAt_localAfter pose (Vec3.ofCoords p))
  · rw [byPoint_visible, ← linearMap_comp]
    exact hpixel.comp p (hasFDerivAt_localAfter_point pose p)
  · rw [byCalibration_visible]
    exact hasFDerivAt_pixelOf_calibration κ _

/-- What a projection holds are the derivatives of the pixel wherever the point is in front of the camera, and
zeros elsewhere. With `D` the derivative of the calibrated perspective map, the one by the point is `D Rᵀ` and
the one by the step `-D Rᵀ [1 | -hat p]`. -/
theorem Tensor.project_derivatives (v : Fin 6 → ℝ) (p : Fin 3 → ℝ) (κ : Fin 5 → ℝ) :
    ∃ (P : Projection ℝ) (T : RigidMotion ℝ) (c : Fin 3 → ℝ)
      (F : (Fin 6 → ℝ) → (Fin 3 → ℝ) → (Fin 5 → ℝ) → Fin 2 → ℝ) (G : (Fin 3 → ℝ) → Fin 2 → ℝ),
      (ofVec (Vec.ofCoords v)).project (ofVec (Vec.ofCoords p)) (ofVec (Vec.ofCoords κ)) = .ok P ∧ P.Shaped ∧
      (ofVec (Vec.ofCoords v)).motion = .ok T ∧
      toCamera (ofVec (Vec.ofCoords v)) (ofVec (Vec.ofCoords p)) = .ok (ofVec (Vec.ofCoords c)) ∧
      c = T.rotation.matrixᵀ *ᵥ (p - T.shift.coords) ∧
      (∀ δ q κ, pixelAfter (ofVec (Vec.ofCoords v)) (ofVec (Vec.ofCoords δ)) (ofVec (Vec.ofCoords q))
        (ofVec (Vec.ofCoords κ)) = .ok (ofVec (Vec.ofCoords (F δ q κ)))) ∧
      (∀ x, perspective (ofVec (Vec.ofCoords κ)) (ofVec (Vec.ofCoords x)) = .ok (ofVec (Vec.ofCoords (G x)))) ∧
      (Projection.minDepth < c 2 → P.valid = true ∧ P.Differentiates F p κ ∧
        ∃ D, HasFDerivAt G (linearMap D) c ∧ P.byPoint.matrix 2 3 = D * T.rotation.matrixᵀ ∧
          P.byPose.matrix 2 6 = -(D * T.rotation.matrixᵀ * stepMatrix (Vec3.ofCoords p))) ∧
      (c 2 ≤ Projection.minDepth → P.valid = false ∧ P.pixel = Vec.zeros 2 ∧ P.byPose = Mat.zeros 2 6 ∧
        P.byPoint = Mat.zeros 2 3 ∧ P.byCalibration = Mat.zeros 2 5) := by
  have hc : Projection.localPoint (Pose.ofCoords v) (Vec3.ofCoords p) =
      Vec3.ofCoords (localAfter (Pose.ofCoords v) 0 p) := rfl
  have hmotion : (ofVec (Vec.ofCoords v)).motion = .ok (Pose.ofCoords v).motion := by
    rw [← Pose.toVec_ofCoords, motion_toVec]
  have hcamera : toCamera (ofVec (Vec.ofCoords v)) (ofVec (Vec.ofCoords p)) =
      .ok (ofVec (Vec.ofCoords (localAfter (Pose.ofCoords v) 0 p))) := by
    rw [← Pose.toVec_ofCoords, ← Vec3.toVec_ofCoords, toCamera_toVec, ← Vec3.toVec_ofCoords, ← hc,
      Projection.localPoint_eq]
    rfl
  refine ⟨_, _, _, _, _, project_ofCoords v p κ, Projection.shaped_ofPoint .., hmotion, hcamera,
    localAfter_zero _ p, pixelAfter_ofCoords v, perspective_ofCoords κ, fun h => ?_, fun h => ?_⟩
  · have hne : localAfter (Pose.ofCoords v) 0 p 2 ≠ 0 := (Projection.minDepth_pos.trans h).ne'
    have hvisible : Projection.ofPoint (Pose.ofCoords v) (Vec3.ofCoords p) (Calibration.ofCoords κ) =
        .visible (Pose.ofCoords v).motion (Vec3.ofCoords p) (Vec3.ofCoords (localAfter (Pose.ofCoords v) 0 p))
          (Calibration.ofCoords κ) := if_pos h
    rw [hvisible]
    exact ⟨rfl, Projection.differentiates_visible _ p κ hne, _, hasFDerivAt_pixelOf κ hne,
      Projection.byPoint_visible .., Projection.byPose_visible ..⟩
  · have hinvisible : Projection.ofPoint (Pose.ofCoords v) (Vec3.ofCoords p) (Calibration.ofCoords κ) =
        .invisible := if_neg (not_lt.mpr h)
    rw [hinvisible]
    exact ⟨rfl, rfl, rfl, rfl, rfl⟩

/-- Two units ahead of a camera that is not turned, a projection is a pixel and its derivatives. -/
theorem Tensor.project_derivatives_ahead : ∃ (P : Projection ℝ)
    (F : (Fin 6 → ℝ) → (Fin 3 → ℝ) → (Fin 5 → ℝ) → Fin 2 → ℝ),
    (ofVec (Vec.ofCoords (0 : Fin 6 → ℝ))).project (ofVec (Vec.ofCoords ![0, 0, 2]))
      (ofVec (Vec.ofCoords ![1, 1, 0, 0, 0])) = .ok P ∧
    P.valid = true ∧ P.Differentiates F ![0, 0, 2] ![1, 1, 0, 0, 0] := by
  obtain ⟨P, T, c, F, G, hP, -, hT, -, hc, -, -, hfront, -⟩ :=
    project_derivatives 0 ![0, 0, 2] ![1, 1, 0, 0, 0]
  have hmotion : (⟨Mat3.one, Vec3.zero⟩ : RigidMotion ℝ) = T := by
    have hpose : (Pose.ofCoords 0 : Pose ℝ) = .identity := rfl
    rw [← Pose.toVec_ofCoords, motion_toVec, hpose, Pose.motion_identity] at hT
    exact Except.ok.inj hT
  have hpoint : (![0, 0, 2] : Fin 3 → ℝ) - (Vec3.zero : Vec3 ℝ).coords = (⟨0, 0, 2⟩ : Vec3 ℝ).coords := by
    ext i
    fin_cases i <;> simp [Vec3.coords, Vec3.zero]
  have hdepth : Projection.minDepth < c 2 := by
    rw [hc, ← hmotion]
    dsimp only
    rw [hpoint, ← Mat3.matrix_transpose, ← Mat3.coords_mulVec]
    have hlt : (Projection.minDepth : ℝ) < 2 := by
      have h : (1e-6 : ℝ) < 2 := by norm_num
      exact h
    simpa [Mat3.one, Mat3.transpose, Mat3.mulVec, Vec3.dot, Vec3.coords] using hlt
  exact ⟨P, F, hP, (hfront hdepth).1, (hfront hdepth).2.1⟩

end BundleAdjustment
