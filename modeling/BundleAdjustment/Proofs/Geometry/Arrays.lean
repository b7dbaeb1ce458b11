import BundleAdjustment.Proofs.Geometry.Similarity
import BundleAdjustment.Proofs.Faults
import BundleAdjustment.Geometry.Arrays

/-!
The geometry on arrays of the right lengths.

Six numbers are a pose and three are a point, and on those the array operations are the ones of space:
points in the coordinates of a camera (`toCamera_toVec`), also after a tangent step (`toCameraAfter_toVec`),
their pixels (`perspective_toVec`), and the logarithm of three by three entries (`axisAngle_toMat`).
-/
namespace BundleAdjustment
variable {K : Type} [ExactScalar K]

/-! ### Numbers of vectors, points and poses -/

def Vec.ofCoords {n : Nat} (x : Fin n → K) : Vec K := ⟨Array.ofFn x⟩

namespace Vec
variable {n : Nat}

omit [ExactScalar K] in
theorem size_ofCoords (x : Fin n → K) : (ofCoords x).size = n := Array.size_ofFn

theorem get_ofCoords (x : Fin n → K) (i : Fin n) : (ofCoords x).get i = x i := by
  simp [ofCoords, get]

theorem coords_ofCoords (x : Fin n → K) : (ofCoords x).coords n = x := funext fun i => get_ofCoords x i

theorem ofCoords_coords {v : Vec K} (h : v.size = n) : ofCoords (v.coords n) = v :=
  eq_of_coords (size_ofCoords _) h (coords_ofCoords _)

end Vec

def Vec3.ofCoords (x : Fin 3 → K) : Vec3 K := ⟨x 0, x 1, x 2⟩

def Pose.ofCoords (x : Fin 6 → K) : Pose K := ⟨⟨x 0, x 1, x 2⟩, ⟨x 3, x 4, x 5⟩⟩

def Calibration.ofCoords (x : Fin 5 → K) : Calibration K := ⟨x 0, x 1, x 2, x 3, x 4⟩

def Vec3.coords (a : Vec3 K) : Fin 3 → K := ![a.x, a.y, a.z]

theorem Vec3.toVec_ofCoords (x : Fin 3 → K) : (Vec3.ofCoords x).toVec = Vec.ofCoords x := by
  refine Vec.eq_of_coords (size_toVec _) (Vec.size_ofCoords x) (funext fun i => ?_)
  rw [Vec.coords_ofCoords]
  fin_cases i <;> rfl

theorem Pose.toVec_ofCoords (x : Fin 6 → K) : (Pose.ofCoords x).toVec = Vec.ofCoords x := by
  refine Vec.eq_of_coords (n := 6) (size_toVec _) (Vec.size_ofCoords x) (funext fun i => ?_)
  rw [Vec.coords_ofCoords]
  fin_cases i <;> rfl

omit [ExactScalar K] in
theorem Vec3.ofCoords_coords (a : Vec3 K) : Vec3.ofCoords a.coords = a := rfl

theorem Vec3.toVec_eq (a : Vec3 K) : a.toVec = Vec.ofCoords a.coords := by
  rw [← toVec_ofCoords, ofCoords_coords]

/-! ### Points in the coordinates of a camera -/

theorem Mat3.toMat_mulVec (A : Mat3 K) (v : Vec3 K) : A.toMat.mulVec v.toVec = (A.mulVec v).toVec := by
  refine Vec.eq_of_coords (Mat.size_mulVec _ _) (Vec3.size_toVec _) (funext fun i => ?_)
  rw [Vec.coords_apply, Mat.get_mulVec (show (i : Nat) < A.toMat.rows from i.isLt)]
  have hcols : A.toMat.cols = 3 := rfl
  rw [hcols]
  fin_cases i <;> simp [Scalar.sum_succ] <;> rfl

namespace Tensor

theorem sub_toVec (a b : Vec3 K) : (ofVec a.toVec).sub (ofVec b.toVec) = .ok (ofVec (a - b).toVec) := by
  have hsub : a.toVec.zipWith (· - ·) b.toVec = (a - b).toVec := by
    refine Vec.eq_of_coords (Vec.size_zipWith ..) (Vec3.size_toVec _) (funext fun i => ?_)
    fin_cases i <;> rfl
  rw [sub, zipWith_ofVec _ ((Vec3.size_toVec a).trans (Vec3.size_toVec b).symm), hsub]

theorem toLocal_toVec (T : RigidMotion K) (p : Vec3 K) :
    toLocal T (ofVec p.toVec) = .ok (ofVec (T.toLocal p).toVec) := by
  rw [toLocal, sub_toVec, ok_bind, matmul_ofMat_ofVec (show _ = _ from (Vec3.size_toVec _).symm),
    Mat3.toMat_mulVec]
  rfl

theorem toCamera_toVec (pose : Pose K) (p : Vec3 K) :
    toCamera (ofVec pose.toVec) (ofVec p.toVec) = .ok (ofVec (pose.motion.toLocal p).toVec) := by
  rw [toCamera, motion_toVec, ok_bind, toLocal_toVec]

theorem toCameraAfter_toVec (pose delta : Pose K) (p : Vec3 K) :
    toCameraAfter (ofVec pose.toVec) (ofVec delta.toVec) (ofVec p.toVec) =
      .ok (ofVec ((delta.motion.compose pose.motion).toLocal p).toVec) := by
  rw [toCameraAfter, motion_toVec, ok_bind, motion_toVec, ok_bind, toLocal_toVec]

/-! ### Rotations -/

/-- The logarithm of an array of three by three entries is that of the matrix. -/
theorem axisAngle_toMat (R : Mat3 K) : (ofMat R.toMat).axisAngle = .ok (Rotation.log R) := by
  have hrows : R.toMat.rows = 3 := rfl
  have hcols : R.toMat.cols = 3 := rfl
  have htrace : Scalar.sum 3 (fun i => R.toMat.get i i) = R.trace := by
    simp only [Scalar.sum_succ, Scalar.sum_zero, zero_add]
    rfl
  have hentries : Mat3.ofFn (fun i j => R.toMat.get (min i 2) (min j 2)) = R := rfl
  simp only [axisAngle, mat?_ofMat, hrows, hcols, min_self, htrace, hentries]
  rfl
/-! ### Pixels -/

/-- The pixel of a point in camera coordinates: it is divided by its depth and calibrated. -/
def perspective (calibration point : Tensor K) : Except Fault (Tensor K) := do
  pixels calibration (← (← point.slice 0 2).zipWith (· / ·) (← point.item 2))

/-- The pixel of a world point in a camera after a tangent step. -/
def pixelAfter (pose delta point calibration : Tensor K) : Except Fault (Tensor K) := do
  perspective calibration (← toCameraAfter pose delta point)

theorem item_ofVec {v : Vec K} {i : Nat} (h : i < v.size) : (ofVec v).item i = .ok (ofScalar (v.get i)) := by
  obtain ⟨n, hn⟩ := Nat.exists_eq_succ_of_ne_zero (Nat.ne_zero_of_lt h)
  have hmin : min i (v.size - 1) = i := by omega
  have hplace := get_ofVec v (min i (v.size - 1))
  rw [item, shape_ofVec, hn]
  rw [hmin] at hplace
  rw [hn, Nat.succ_sub_one] at hmin
  simp only [Nat.succ_sub_one, hmin]
  exact congrArg (fun a => Except.ok (ofScalar a)) hplace

theorem zipWith_ofScalar (f : K → K → K) (a b : K) :
    zipWith f (ofScalar a) (ofScalar b) = .ok (ofScalar (f a b)) := rfl

theorem mul_ofScalar (a b : K) : (ofScalar a).mul (ofScalar b) = .ok (ofScalar (a * b)) :=
  zipWith_ofScalar ..

theorem add_ofScalar (a b : K) : (ofScalar a).add (ofScalar b) = .ok (ofScalar (a + b)) :=
  zipWith_ofScalar ..

theorem stack_ofScalar (a b : K) : (ofScalar a).stack [ofScalar b] = .ok (ofVec ⟨#[a, b]⟩) := rfl

/-- Every number of a vector with a single number. -/
theorem zipWith_ofVec_ofScalar (f : K → K → K) (u : Vec K) (b : K) :
    zipWith f (ofVec u) (ofScalar b) = .ok (ofVec (u.map (f · b))) := by
  have halign : align [u.size] [] = some [u.size] := by simp [align, alignReversed]
  have hshape : (ofScalar b).shape = [] := rfl
  have hscalar : ∀ p, (ofScalar b).get (restrict [] p) = b := fun p => by
    simp [restrict, get, ofScalar, storedAt]
  simp only [zipWith, shape_ofVec, hshape, halign, ofFn_singleton, hscalar]
  refine congrArg (fun v => Except.ok (ofVec v)) (Vec.ofFn_congr fun i hi => ?_)
  have hplace : restrict [u.size] [i] = [i] := by
    have h0 : (if u.size = 1 then 0 else i) = i := by split <;> omega
    simp [restrict, h0]
  rw [hplace, get_ofVec]

/-- On a point the program's pixel is the calibrated point of the image plane. -/
theorem perspective_toVec (κ : Fin 5 → K) (c : Vec3 K) :
    perspective (ofVec (Vec.ofCoords κ)) (ofVec c.toVec) =
      .ok (ofVec ⟨#[((Calibration.ofCoords κ).pixel (c.x / c.z) (c.y / c.z)).1,
        ((Calibration.ofCoords κ).pixel (c.x / c.z) (c.y / c.z)).2]⟩) := by
  have hitem : ∀ i : Fin 5, (ofVec (Vec.ofCoords κ)).item i = .ok (ofScalar (κ i)) := fun i => by
    rw [item_ofVec ((Vec.size_ofCoords κ).symm ▸ i.isLt), Vec.get_ofCoords]
  have hget : ∀ {n : Nat} (f : Nat → K) {i : Nat}, i < n → (ofVec (Vec.ofFn n f)).item i = .ok (ofScalar (f i)) :=
    fun {n} f {i} h => by
      have hi : i < (Vec.ofFn n f).size := (Vec.size_ofFn n f).symm ▸ h
      rw [item_ofVec hi, Vec.get_ofFn h]
  have hdepth : (ofVec c.toVec).item 2 = .ok (ofScalar c.z) := hget c.get (Nat.lt_succ_self 2)
  have hplane : (c.toVec.slice 0 2).map (· / c.z) = Vec.ofFn 2 fun i => c.get i / c.z := rfl
  have hx : (ofVec (Vec.ofFn 2 fun i => c.get i / c.z)).item 0 = .ok (ofScalar (c.x / c.z)) :=
    hget _ Nat.zero_lt_two
  have hy : (ofVec (Vec.ofFn 2 fun i => c.get i / c.z)).item 1 = .ok (ofScalar (c.y / c.z)) :=
    hget _ Nat.one_lt_two
  rw [perspective, slice_ofVec, ok_bind, hdepth, ok_bind, zipWith_ofVec_ofScalar, ok_bind, hplane]
  have h₀ : (ofVec (Vec.ofCoords κ)).item 0 = .ok (ofScalar (κ 0)) := hitem 0
  have h₁ : (ofVec (Vec.ofCoords κ)).item 1 = .ok (ofScalar (κ 1)) := hitem 1
  have h₂ : (ofVec (Vec.ofCoords κ)).item 2 = .ok (ofScalar (κ 2)) := hitem 2
  have h₃ : (ofVec (Vec.ofCoords κ)).item 3 = .ok (ofScalar (κ 3)) := hitem 3
  have h₄ : (ofVec (Vec.ofCoords κ)).item 4 = .ok (ofScalar (κ 4)) := hitem 4
  rw [pixels, hx, ok_bind, hy, ok_bind, h₀, ok_bind, mul_ofScalar, ok_bind, h₂, ok_bind, mul_ofScalar, ok_bind,
    add_ofScalar, ok_bind, h₃, ok_bind, add_ofScalar, ok_bind, h₁, ok_bind, mul_ofScalar, ok_bind, h₄, ok_bind,
    add_ofScalar, ok_bind, stack_ofScalar]
  rfl

end Tensor
end BundleAdjustment
