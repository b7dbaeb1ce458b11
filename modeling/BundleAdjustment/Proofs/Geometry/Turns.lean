import BundleAdjustment.Proofs.Geometry.Arrays
import Mathlib.Algebra.Quaternion
import Mathlib.Analysis.InnerProductSpace.PiL2
import Mathlib.Analysis.SpecialFunctions.Trigonometric.Bounds

/-!
Turns of space.

Over the reals a turn by an angle about a unit axis is a matrix (`Mat3.turn`), and the exponential of an
axis-angle vector is the turn that it describes, but for vectors below the small angle, where it is of
first order (`Rotation.exp_scale_within`). Turns are composed as the quaternions of their half angles
(`Mat3.ofQuaternion_mul`), and every quaternion of length one is a turn (`Mat3.exists_turn`).
-/
namespace BundleAdjustment

theorem abs_add_le_of_le {x y c d : ℝ} (hx : |x| ≤ c) (hy : |y| ≤ d) : |x + y| ≤ c + d :=
  (abs_add_le x y).trans (add_le_add hx hy)

theorem abs_sub_le_of_le {x y c d : ℝ} (hx : |x| ≤ c) (hy : |y| ≤ d) : |x - y| ≤ c + d :=
  (abs_sub x y).trans (add_le_add hx hy)

theorem abs_mul_le_left {x y c : ℝ} (hx : |x| ≤ c) (hy : |y| ≤ 1) : |x * y| ≤ c := by
  rw [abs_mul]
  exact (mul_le_of_le_one_right (abs_nonneg x) hy).trans hx

theorem abs_mul_le_right {x y c : ℝ} (hx : |x| ≤ 1) (hy : |y| ≤ c) : |x * y| ≤ c := by
  rw [mul_comm]
  exact abs_mul_le_left hy hx

/-! ### Lengths -/

namespace Vec3

theorem norm_eq (a : Vec3 ℝ) : a.norm = √(a.dot a) := by
  have hdot : a.toVec.dot a.toVec = a.dot a := by
    simp [Vec.dot, Scalar.sum_succ, toVec, Vec.get_ofFn, get, dot]
  rw [norm, Vec.norm, hdot]
  rfl

theorem get_sub (a b : Vec3 ℝ) (i : Nat) : (a - b).get i = a.get i - b.get i := by
  rcases i with _ | _ | i <;> rfl

theorem get_scale (c : ℝ) (a : Vec3 ℝ) (i : Nat) : (a.scale c).get i = c * a.get i := by
  rcases i with _ | _ | i <;> rfl

/-- The length is that of Euclidean space. -/
theorem norm_eq_euclidean (a : Vec3 ℝ) : a.norm = ‖WithLp.toLp 2 a.coords‖ := by
  rw [norm_eq, EuclideanSpace.norm_eq, Fin.sum_univ_three]
  simp [coords, dot, sq]

theorem norm_ofCoords (w : Fin 3 → ℝ) : (ofCoords w).norm = √(∑ i, w i ^ 2) := by
  rw [norm_eq, Fin.sum_univ_three]
  simp only [dot, ofCoords, sq]

theorem norm_nonneg (a : Vec3 ℝ) : 0 ≤ a.norm := a.norm_eq ▸ Real.sqrt_nonneg _

theorem dot_self_nonneg (a : Vec3 ℝ) : 0 ≤ a.dot a :=
  add_nonneg (add_nonneg (mul_self_nonneg _) (mul_self_nonneg _)) (mul_self_nonneg _)

theorem norm_mul_norm (a : Vec3 ℝ) : a.norm * a.norm = a.dot a := by
  rw [norm_eq, Real.mul_self_sqrt a.dot_self_nonneg]

theorem dot_scale (c : ℝ) (a : Vec3 ℝ) : (a.scale c).dot (a.scale c) = c ^ 2 * a.dot a := by
  simp only [scale, dot]
  ring

theorem norm_scale_eq_abs (c : ℝ) (a : Vec3 ℝ) : (a.scale c).norm = |c| * a.norm := by
  rw [norm_eq, norm_eq, dot_scale, Real.sqrt_mul (sq_nonneg c), Real.sqrt_sq_eq_abs]

theorem norm_scale {c : ℝ} (hc : 0 ≤ c) (a : Vec3 ℝ) : (a.scale c).norm = c * a.norm := by
  rw [norm_scale_eq_abs, abs_of_nonneg hc]

theorem norm_of_unit {a : Vec3 ℝ} (ha : a.dot a = 1) : a.norm = 1 := by
  rw [norm_eq, ha, Real.sqrt_one]

theorem abs_norm_sub_le (a b : Vec3 ℝ) : |a.norm - b.norm| ≤ (a - b).norm := by
  have hsub : WithLp.toLp 2 (a - b).coords = WithLp.toLp 2 a.coords - WithLp.toLp 2 b.coords := by
    ext i
    fin_cases i <;> rfl
  rw [norm_eq_euclidean, norm_eq_euclidean, norm_eq_euclidean, hsub]
  exact abs_norm_sub_norm_le _ _

theorem abs_get_le_norm (a : Vec3 ℝ) (i : Nat) : |a.get i| ≤ a.norm := by
  have hdot : a.dot a = a.x ^ 2 + a.y ^ 2 + a.z ^ 2 := by
    simp only [dot]
    ring
  rw [norm_eq, hdot]
  apply Real.abs_le_sqrt
  rcases i with _ | _ | i <;> simp only [get] <;> nlinarith [sq_nonneg a.x, sq_nonneg a.y, sq_nonneg a.z]

theorem norm_le_of_get {a : Vec3 ℝ} {κ : ℝ} (hκ : 0 ≤ κ) (h : ∀ i, |a.get i| ≤ κ) : a.norm ≤ 2 * κ := by
  rw [norm_eq]
  refine Real.sqrt_le_iff.mpr ⟨by positivity, ?_⟩
  have hx := sq_le_sq' (abs_le.mp (h 0)).1 (abs_le.mp (h 0)).2
  have hy := sq_le_sq' (abs_le.mp (h 1)).1 (abs_le.mp (h 1)).2
  have hz := sq_le_sq' (abs_le.mp (h 2)).1 (abs_le.mp (h 2)).2
  simp only [get] at hx hy hz
  simp only [dot]
  nlinarith

/-- Every vector has a direction, which is any if the vector is zero. -/
theorem exists_direction (a : Vec3 ℝ) : ∃ b : Vec3 ℝ, b.dot b = 1 ∧ a = b.scale a.norm := by
  rcases eq_or_ne a.norm 0 with h | h
  · have hdot : a.x * a.x + a.y * a.y + a.z * a.z = 0 := by
      have := a.norm_mul_norm
      rw [h, mul_zero] at this
      exact this.symm
    refine ⟨⟨1, 0, 0⟩, by simp [dot], ?_⟩
    have hx : a.x = 0 := by nlinarith [mul_self_nonneg a.x, mul_self_nonneg a.y, mul_self_nonneg a.z]
    have hy : a.y = 0 := by nlinarith [mul_self_nonneg a.x, mul_self_nonneg a.y, mul_self_nonneg a.z]
    have hz : a.z = 0 := by nlinarith [mul_self_nonneg a.x, mul_self_nonneg a.y, mul_self_nonneg a.z]
    rw [h]
    exact Vec3.ext (by simpa [scale] using hx) (by simpa [scale] using hy) (by simpa [scale] using hz)
  · refine ⟨a.divide a.norm, ?_, ?_⟩
    · have hdot : (a.divide a.norm).dot (a.divide a.norm) = a.dot a / (a.norm * a.norm) := by
        simp only [divide, dot]
        ring
      rw [hdot, norm_mul_norm, div_self]
      rw [← norm_mul_norm]
      exact mul_self_ne_zero.mpr h
    · exact Vec3.ext (mul_div_cancel₀ a.x h).symm (mul_div_cancel₀ a.y h).symm (mul_div_cancel₀ a.z h).symm

end Vec3

/-! ### Entries -/

namespace Mat3

noncomputable def outer (a b : Vec3 ℝ) : Mat3 ℝ := ⟨b.scale a.x, b.scale a.y, b.scale a.z⟩

theorem ext_get {A B : Mat3 ℝ} (h : ∀ i j, A.get i j = B.get i j) : A = B :=
  Mat3.ext (Vec3.ext (h 0 0) (h 0 1) (h 0 2)) (Vec3.ext (h 1 0) (h 1 1) (h 1 2)) (Vec3.ext (h 2 0) (h 2 1) (h 2 2))

theorem get_add (A B : Mat3 ℝ) (i j : Nat) : (A + B).get i j = A.get i j + B.get i j := by
  rcases i with _ | _ | i <;> rcases j with _ | _ | j <;> rfl

theorem get_sub (A B : Mat3 ℝ) (i j : Nat) : (A - B).get i j = A.get i j - B.get i j := by
  rcases i with _ | _ | i <;> rcases j with _ | _ | j <;> rfl

theorem get_scale (c : ℝ) (A : Mat3 ℝ) (i j : Nat) : (A.scale c).get i j = c * A.get i j := by
  rcases i with _ | _ | i <;> rcases j with _ | _ | j <;> rfl

theorem get_outer (a b : Vec3 ℝ) (i j : Nat) : (outer a b).get i j = a.get i * b.get j := by
  rcases i with _ | _ | i <;> rcases j with _ | _ | j <;> rfl

theorem sub_eq (A B : Mat3 ℝ) : A - B = ⟨A.row₀ - B.row₀, A.row₁ - B.row₁, A.row₂ - B.row₂⟩ := rfl

theorem hat_sub (a b : Vec3 ℝ) : hat (a - b) = hat a - hat b := by
  simp only [hat, sub_eq, Vec3.sub_eq, Mat3.mk.injEq, Vec3.mk.injEq]
  exact ⟨⟨(sub_self _).symm, by ring, trivial⟩, ⟨trivial, (sub_self _).symm, by ring⟩, by ring, trivial,
    (sub_self _).symm⟩

theorem hat_scale (c : ℝ) (a : Vec3 ℝ) : hat (a.scale c) = (hat a).scale c := by
  simp only [hat, scale, Vec3.scale, Mat3.mk.injEq, Vec3.mk.injEq]
  exact ⟨⟨(mul_zero _).symm, by ring, trivial⟩, ⟨trivial, (mul_zero _).symm, by ring⟩, by ring, trivial,
    (mul_zero _).symm⟩

theorem abs_get_hat_le {a : Vec3 ℝ} {c : ℝ} (hc : 0 ≤ c) (h : ∀ i, |a.get i| ≤ c) (i j : Nat) :
    |(hat a).get i j| ≤ c := by
  have hx : |a.x| ≤ c := h 0
  have hy : |a.y| ≤ c := h 1
  have hz : |a.z| ≤ c := h 2
  rcases i with _ | _ | i <;> rcases j with _ | _ | j <;> simpa [hat, get, Vec3.get]

/-- Every entry of one matrix is within a bound of that of the other. -/
def Within (c : ℝ) (A B : Mat3 ℝ) : Prop := ∀ i j, |A.get i j - B.get i j| ≤ c

namespace Within
variable {c d : ℝ} {A B C : Mat3 ℝ}

theorem trans (h : Within c A B) (h' : Within d B C) : Within (c + d) A C := fun i j =>
  (abs_sub_le _ (B.get i j) _).trans (add_le_add (h i j) (h' i j))

theorem symm (h : Within c A B) : Within c B A := fun i j => by
  rw [abs_sub_comm]
  exact h i j

theorem mono (h : Within c A B) (hcd : c ≤ d) : Within d A B := fun i j => (h i j).trans hcd

end Within

theorem within_refl {c : ℝ} (hc : 0 ≤ c) (A : Mat3 ℝ) : Within c A A := fun i j => by
  rw [sub_self, abs_zero]
  exact hc

/-! ### Turns about an axis -/

/-- The turn by an angle about an axis. -/
noncomputable def turn (θ : ℝ) (a : Vec3 ℝ) : Mat3 ℝ :=
  one.scale (Real.cos θ) + (hat a).scale (Real.sin θ) + (outer a a).scale (1 - Real.cos θ)

theorem get_turn (θ : ℝ) (a : Vec3 ℝ) (i j : Nat) : (turn θ a).get i j =
    Real.cos θ * one.get i j + Real.sin θ * (hat a).get i j + (1 - Real.cos θ) * (a.get i * a.get j) := by
  rw [turn, get_add, get_add, get_scale, get_scale, get_scale, get_outer]

theorem abs_get_le_one {a : Vec3 ℝ} (ha : a.dot a = 1) (i : Nat) : |a.get i| ≤ 1 :=
  Vec3.norm_of_unit ha ▸ a.abs_get_le_norm i

theorem get_one_cases (w : Vec3 ℝ) (i j : Nat) :
    (one : Mat3 ℝ).get i j = 0 ∨ (one : Mat3 ℝ).get i j = 1 ∧ w.get i = w.get j := by
  rcases i with _ | _ | i <;> rcases j with _ | _ | j <;> simp [one, get, Vec3.get]

/-- No entry of the part of the identity across a vector is above one, times the square of the vector. -/
theorem abs_dot_sub_outer_le (w : Vec3 ℝ) (i j : Nat) :
    |w.dot w * one.get i j - w.get i * w.get j| ≤ w.dot w := by
  have hproduct : |w.get i * w.get j| ≤ w.dot w := by
    rw [abs_mul, ← Vec3.norm_mul_norm]
    exact mul_le_mul (Vec3.abs_get_le_norm w i) (Vec3.abs_get_le_norm w j) (abs_nonneg _) w.norm_nonneg
  rcases get_one_cases w i j with hone | ⟨hone, hij⟩
  · rwa [hone, mul_zero, zero_sub, abs_neg]
  · rw [hij] at hproduct ⊢
    rw [hone, mul_one, abs_of_nonneg (sub_nonneg.mpr ((le_abs_self _).trans hproduct))]
    exact sub_le_self _ (mul_self_nonneg _)

/-- The projection along a unit vector has no entry above one. -/
theorem abs_one_sub_outer_le {a : Vec3 ℝ} (ha : a.dot a = 1) (i j : Nat) :
    |one.get i j - a.get i * a.get j| ≤ 1 := by
  simpa [ha] using abs_dot_sub_outer_le a i j

/-- Turns by close angles about close axes are close. -/
theorem turn_within {φ θ ν μ β : ℝ} {b a : Vec3 ℝ} (hb : b.dot b = 1) (ha : a.dot a = 1)
    (hcos : |Real.cos φ - Real.cos θ| ≤ ν) (hsin : |Real.sin φ - Real.sin θ| ≤ μ)
    (haxis : ∀ i, |b.get i - a.get i| ≤ β) : Within (ν + μ + 5 * β) (turn φ b) (turn θ a) := by
  intro i j
  have hβ : 0 ≤ β := (abs_nonneg _).trans (haxis 0)
  have hdiff : (turn φ b).get i j - (turn θ a).get i j =
      (Real.cos φ - Real.cos θ) * (one.get i j - b.get i * b.get j) +
        (Real.sin φ - Real.sin θ) * (hat b).get i j + Real.sin θ * (hat (b - a)).get i j +
        (1 - Real.cos θ) * (b.get i * (b.get j - a.get j) + (b.get i - a.get i) * a.get j) := by
    rw [get_turn, get_turn, hat_sub, get_sub]
    ring
  have hsub : ∀ i, |(b - a).get i| ≤ β := fun i => by
    rw [Vec3.get_sub]
    exact haxis i
  have hfirst : |(Real.cos φ - Real.cos θ) * (one.get i j - b.get i * b.get j)| ≤ ν :=
    abs_mul_le_left hcos (abs_one_sub_outer_le hb i j)
  have hsecond : |(Real.sin φ - Real.sin θ) * (hat b).get i j| ≤ μ :=
    abs_mul_le_left hsin (abs_get_hat_le zero_le_one (abs_get_le_one hb) i j)
  have hthird : |Real.sin θ * (hat (b - a)).get i j| ≤ β :=
    abs_mul_le_right (Real.abs_sin_le_one θ) (abs_get_hat_le hβ hsub i j)
  have hproduct : |b.get i * (b.get j - a.get j) + (b.get i - a.get i) * a.get j| ≤ β + β :=
    abs_add_le_of_le (abs_mul_le_right (abs_get_le_one hb i) (haxis j))
      (abs_mul_le_left (haxis i) (abs_get_le_one ha j))
  have hfourth : |(1 - Real.cos θ) * (b.get i * (b.get j - a.get j) + (b.get i - a.get i) * a.get j)| ≤
      2 * (β + β) := by
    rw [abs_mul]
    refine mul_le_mul (abs_le.mpr ⟨?_, ?_⟩) hproduct (abs_nonneg _) zero_le_two
    · linarith [Real.cos_le_one θ]
    · linarith [Real.neg_one_le_cos θ]
  calc |(turn φ b).get i j - (turn θ a).get i j| ≤ ν + μ + β + 2 * (β + β) := by
        rw [hdiff]
        exact abs_add_le_of_le (abs_add_le_of_le (abs_add_le_of_le hfirst hsecond) hthird) hfourth
    _ = ν + μ + 5 * β := by ring

section Sine
variable {φ θ ν σ : ℝ} {b a : Vec3 ℝ} (hb : b.dot b = 1) (ha : a.dot a = 1) (hφ : 0 ≤ Real.cos φ)
  (hθ : 0 ≤ Real.cos θ) (hcos : |Real.cos φ - Real.cos θ| ≤ ν)
  (hsine : ∀ i, |Real.sin φ * b.get i - Real.sin θ * a.get i| ≤ σ)
include hb ha hφ hθ hcos hsine

/-- What is of second order in a turn, times one and its cosine, is a product of sines along the axis. -/
theorem abs_secondOrder_sub_le (i j : Nat) :
    |(1 - Real.cos φ) * (b.get i * b.get j) - (1 - Real.cos θ) * (a.get i * a.get j)| ≤ σ + σ + ν := by
  have hsmall : |(1 - Real.cos θ) * (a.get i * a.get j)| ≤ 1 := by
    refine abs_mul_le_left (abs_le.mpr ⟨?_, ?_⟩) (abs_mul_le_left (abs_get_le_one ha i) (abs_get_le_one ha j))
    · linarith [Real.cos_le_one θ]
    · linarith
  have hsines : |Real.sin φ * b.get i * (Real.sin φ * b.get j - Real.sin θ * a.get j) +
      (Real.sin φ * b.get i - Real.sin θ * a.get i) * (Real.sin θ * a.get j)| ≤ σ + σ := by
    refine abs_add_le_of_le (abs_mul_le_right ?_ (hsine j)) (abs_mul_le_left (hsine i) ?_)
    · exact abs_mul_le_left (Real.abs_sin_le_one φ) (abs_get_le_one hb i)
    · exact abs_mul_le_left (Real.abs_sin_le_one θ) (abs_get_le_one ha j)
  have hcosines : |(1 - Real.cos θ) * (a.get i * a.get j) * (Real.cos φ - Real.cos θ)| ≤ ν :=
    abs_mul_le_right hsmall hcos
  have hproduct : ((1 - Real.cos φ) * (b.get i * b.get j) - (1 - Real.cos θ) * (a.get i * a.get j)) *
      (1 + Real.cos φ) = Real.sin φ * b.get i * (Real.sin φ * b.get j - Real.sin θ * a.get j) +
        (Real.sin φ * b.get i - Real.sin θ * a.get i) * (Real.sin θ * a.get j) -
      (1 - Real.cos θ) * (a.get i * a.get j) * (Real.cos φ - Real.cos θ) := by
    linear_combination (-(b.get i * b.get j)) * Real.sin_sq_add_cos_sq φ +
      a.get i * a.get j * Real.sin_sq_add_cos_sq θ
  have hbound := abs_sub_le_of_le hsines hcosines
  rw [← hproduct, abs_mul, abs_of_pos (by linarith : 0 < 1 + Real.cos φ)] at hbound
  exact (le_mul_of_one_le_right (abs_nonneg _) (by linarith)).trans hbound

/-- Turns by at most a right angle are close if their sines along the axes are. -/
theorem turn_within_of_sine : Within (2 * ν + 3 * σ) (turn φ b) (turn θ a) := by
  intro i j
  have hσ : 0 ≤ σ := (abs_nonneg _).trans (hsine 0)
  have hdiff : (turn φ b).get i j - (turn θ a).get i j = (Real.cos φ - Real.cos θ) * one.get i j +
      (hat (b.scale (Real.sin φ) - a.scale (Real.sin θ))).get i j +
      ((1 - Real.cos φ) * (b.get i * b.get j) - (1 - Real.cos θ) * (a.get i * a.get j)) := by
    rw [get_turn, get_turn, hat_sub, hat_scale, hat_scale, get_sub, get_scale, get_scale]
    ring
  have hone : |(one : Mat3 ℝ).get i j| ≤ 1 := by
    rcases i with _ | _ | i <;> rcases j with _ | _ | j <;> simp [one, get, Vec3.get]
  have hfirst : |(Real.cos φ - Real.cos θ) * one.get i j| ≤ ν := abs_mul_le_left hcos hone
  have hsecond : |(hat (b.scale (Real.sin φ) - a.scale (Real.sin θ))).get i j| ≤ σ :=
    abs_get_hat_le hσ (fun i => by
      rw [Vec3.get_sub, Vec3.get_scale, Vec3.get_scale]
      exact hsine i) i j
  have hthird := abs_secondOrder_sub_le hb ha hφ hθ hcos hsine i j
  calc |(turn φ b).get i j - (turn θ a).get i j| ≤ ν + σ + (σ + σ + ν) := by
        rw [hdiff]
        exact abs_add_le_of_le (abs_add_le_of_le hfirst hsecond) hthird
    _ = 2 * ν + 3 * σ := by ring

end Sine

/-- Up to an angle of one, the first-order rotation is within its square of the turn. -/
theorem firstOrder_within_turn {φ : ℝ} {a : Vec3 ℝ} (ha : a.dot a = 1) (h₀ : 0 ≤ φ) (h₁ : φ ≤ 1) :
    Within (φ ^ 2) (one + hat (a.scale φ)) (turn φ a) := by
  intro i j
  have hdiff : (one + hat (a.scale φ)).get i j - (turn φ a).get i j =
      (1 - Real.cos φ) * (one.get i j - a.get i * a.get j) + (φ - Real.sin φ) * (hat a).get i j := by
    rw [get_add, hat_scale, get_scale, get_turn]
    ring
  have hcos : |1 - Real.cos φ| ≤ φ ^ 2 / 2 := by
    rw [abs_of_nonneg (by linarith [Real.cos_le_one φ])]
    linarith [Real.one_sub_sq_div_two_le_cos (x := φ)]
  have hsin : |φ - Real.sin φ| ≤ φ ^ 2 / 2 := by
    rw [abs_of_nonneg (by linarith [Real.sin_le h₀])]
    nlinarith [Real.sin_ge_sub_cube h₀, mul_nonneg (sq_nonneg φ) (sub_nonneg.mpr h₁), sq_nonneg φ]
  calc |(one + hat (a.scale φ)).get i j - (turn φ a).get i j| ≤ φ ^ 2 / 2 + φ ^ 2 / 2 := by
        rw [hdiff]
        exact abs_add_le_of_le (abs_mul_le_left hcos (abs_one_sub_outer_le ha i j))
          (abs_mul_le_left hsin (abs_get_hat_le zero_le_one (abs_get_le_one ha) i j))
    _ = φ ^ 2 := add_halves _

end Mat3

/-! ### The exponential -/

namespace Rotation

theorem smallAngle_eq : (smallAngle : ℝ) = 1e-5 := rfl

theorem smallAngle_pos : (0 : ℝ) < smallAngle := by
  rw [smallAngle_eq]
  norm_num

theorem smallAngle_le_one : (smallAngle : ℝ) ≤ 1 := by
  rw [smallAngle_eq]
  norm_num

theorem hat_mul_hat {a : Vec3 ℝ} (ha : a.dot a = 1) (i j : Nat) :
    ((Mat3.hat a).mul (Mat3.hat a)).get i j = a.get i * a.get j - Mat3.one.get i j := by
  simp only [Vec3.dot] at ha
  rcases i with _ | _ | i <;> rcases j with _ | _ | j <;>
    simp [Mat3.hat, Mat3.mul, Mat3.transpose, Mat3.mulVec, Vec3.dot, Mat3.get, Vec3.get, Mat3.one] <;>
    linarith

theorem norm_scale_of_unit {φ : ℝ} {a : Vec3 ℝ} (ha : a.dot a = 1) (h : 0 ≤ φ) : (a.scale φ).norm = φ := by
  rw [Vec3.norm_scale h, Vec3.norm_of_unit ha, mul_one]

/-- From the small angle on the exponential is the turn about the direction of its vector. -/
theorem exp_scale {φ : ℝ} {a : Vec3 ℝ} (ha : a.dot a = 1) (h : smallAngle ≤ φ) :
    exp (a.scale φ) = Mat3.turn φ a := by
  have hφ : 0 < φ := smallAngle_pos.trans_le h
  have haxis : (a.scale φ).divide φ = a :=
    Vec3.ext (mul_div_cancel_left₀ _ hφ.ne') (mul_div_cancel_left₀ _ hφ.ne') (mul_div_cancel_left₀ _ hφ.ne')
  rw [exp, norm_scale_of_unit ha hφ.le, expAngle, if_neg (not_lt.mpr h)]
  dsimp only
  rw [haxis]
  refine Mat3.ext_get fun i j => ?_
  rw [Mat3.get_add, Mat3.get_add, Mat3.get_scale, Mat3.get_scale, hat_mul_hat ha, Mat3.get_turn]
  show Mat3.one.get i j + Real.sin φ * (Mat3.hat a).get i j +
    (1 - Real.cos φ) * (a.get i * a.get j - Mat3.one.get i j) = _
  ring

/-- Below the small angle the exponential is the turn but for the square of the angle. -/
theorem exp_scale_within {φ : ℝ} {a : Vec3 ℝ} (ha : a.dot a = 1) (h : 0 ≤ φ) :
    Mat3.Within (smallAngle ^ 2) (exp (a.scale φ)) (Mat3.turn φ a) := by
  rcases lt_or_ge φ smallAngle with hφ | hφ
  · have hle : φ ≤ 1 := hφ.le.trans smallAngle_le_one
    rw [exp, norm_scale_of_unit ha h, expAngle, if_pos hφ]
    exact (Mat3.firstOrder_within_turn ha h hle).mono (pow_le_pow_left₀ h hφ.le 2)
  · rw [exp_scale ha hφ]
    exact Mat3.within_refl (sq_nonneg _) _

end Rotation

/-! ### Quaternions -/

/-- The quaternion of a real part and a vector. -/
noncomputable def Vec3.quaternion (w : ℝ) (v : Vec3 ℝ) : Quaternion ℝ := ⟨w, v.x, v.y, v.z⟩

theorem Vec3.normSq_quaternion (w : ℝ) (v : Vec3 ℝ) : Quaternion.normSq (quaternion w v) = w ^ 2 + v.dot v := by
  rw [Quaternion.normSq_def']
  simp only [quaternion, dot]
  ring

namespace Mat3

/-- The matrix of a quaternion: its squared length times the turn by twice its angle. -/
noncomputable def ofQuaternion (q : Quaternion ℝ) : Mat3 ℝ :=
  let v : Vec3 ℝ := ⟨q.imI, q.imJ, q.imK⟩
  one.scale (q.re ^ 2 - v.dot v) + (hat v).scale (q.re + q.re) + (outer v v + outer v v)

theorem ofQuaternion_eq (q : Quaternion ℝ) : ofQuaternion q =
    ⟨⟨q.re ^ 2 + q.imI ^ 2 - q.imJ ^ 2 - q.imK ^ 2, 2 * (q.imI * q.imJ - q.re * q.imK),
        2 * (q.imI * q.imK + q.re * q.imJ)⟩,
      ⟨2 * (q.imI * q.imJ + q.re * q.imK), q.re ^ 2 - q.imI ^ 2 + q.imJ ^ 2 - q.imK ^ 2,
        2 * (q.imJ * q.imK - q.re * q.imI)⟩,
      ⟨2 * (q.imI * q.imK - q.re * q.imJ), 2 * (q.imJ * q.imK + q.re * q.imI),
        q.re ^ 2 - q.imI ^ 2 - q.imJ ^ 2 + q.imK ^ 2⟩⟩ := by
  simp only [ofQuaternion, add_eq, scale, Vec3.add_eq, Vec3.scale, one, hat, outer, Vec3.dot, Mat3.mk.injEq,
    Vec3.mk.injEq]
  refine ⟨⟨?_, ?_, ?_⟩, ⟨?_, ?_, ?_⟩, ?_, ?_, ?_⟩ <;> ring

theorem get_ofQuaternion (w : ℝ) (v : Vec3 ℝ) (i j : Nat) : (ofQuaternion (v.quaternion w)).get i j =
    (w ^ 2 - v.dot v) * one.get i j + (w + w) * (hat v).get i j + (v.get i * v.get j + v.get i * v.get j) := by
  rw [← get_outer, ← get_scale, ← get_scale, ← get_add, ← get_add, ← get_add]
  rfl

theorem ofQuaternion_mul (p q : Quaternion ℝ) : ofQuaternion (p * q) = (ofQuaternion p).mul (ofQuaternion q) := by
  simp only [ofQuaternion_eq, mul, transpose, mulVec, Vec3.dot, Quaternion.re_mul, Quaternion.imI_mul,
    Quaternion.imJ_mul, Quaternion.imK_mul, Mat3.mk.injEq, Vec3.mk.injEq]
  refine ⟨⟨?_, ?_, ?_⟩, ⟨?_, ?_, ?_⟩, ?_, ?_, ?_⟩ <;> ring

theorem ofQuaternion_smul (t : ℝ) (q : Quaternion ℝ) : ofQuaternion (t • q) = (ofQuaternion q).scale (t ^ 2) := by
  simp only [ofQuaternion_eq, scale, Vec3.scale, Quaternion.re_smul, Quaternion.imI_smul, Quaternion.imJ_smul,
    Quaternion.imK_smul, smul_eq_mul, Mat3.mk.injEq, Vec3.mk.injEq]
  refine ⟨⟨?_, ?_, ?_⟩, ⟨?_, ?_, ?_⟩, ?_, ?_, ?_⟩ <;> ring

/-- No entry of the matrix of a quaternion is above its squared length. -/
theorem abs_get_ofQuaternion_le (q : Quaternion ℝ) (i j : Nat) :
    |(ofQuaternion q).get i j| ≤ Quaternion.normSq q := by
  have hsquares : ∀ a b : ℝ, 0 ≤ (a - b) ^ 2 ∧ 0 ≤ (a + b) ^ 2 ∧ 0 ≤ a ^ 2 ∧ 0 ≤ b ^ 2 := fun a b =>
    ⟨sq_nonneg _, sq_nonneg _, sq_nonneg _, sq_nonneg _⟩
  rw [Quaternion.normSq_def', abs_le]
  -- An entry is a sum of squares with signs, or twice the sum of two products.
  rcases i with _ | _ | i <;> rcases j with _ | _ | j <;> simp only [ofQuaternion_eq, get, Vec3.get] <;>
    constructor <;>
    linarith [hsquares q.re q.imI, hsquares q.re q.imJ, hsquares q.re q.imK, hsquares q.imI q.imJ,
      hsquares q.imI q.imK, hsquares q.imJ q.imK]

/-- A turn is the matrix of the quaternion of its half angle. -/
theorem turn_eq_ofQuaternion {θ : ℝ} {a : Vec3 ℝ} (ha : a.dot a = 1) :
    turn θ a = ofQuaternion ((a.scale (Real.sin (θ / 2))).quaternion (Real.cos (θ / 2))) := by
  have hcos : Real.cos θ = Real.cos (θ / 2) ^ 2 - Real.sin (θ / 2) ^ 2 := by
    rw [← Real.cos_two_mul', mul_div_cancel₀ _ two_ne_zero]
  have hsin : Real.sin θ = 2 * Real.sin (θ / 2) * Real.cos (θ / 2) := by
    rw [← Real.sin_two_mul, mul_div_cancel₀ _ two_ne_zero]
  have hone := Real.sin_sq_add_cos_sq (θ / 2)
  refine ext_get fun i j => ?_
  rw [get_turn, get_ofQuaternion, hat_scale, get_scale, Vec3.get_scale, Vec3.get_scale, Vec3.dot_scale, ha, hcos,
    hsin]
  linear_combination -(a.get i * a.get j) * hone

/-- The matrix of a quaternion of length one is a turn. -/
theorem exists_turn {q : Quaternion ℝ} (hq : Quaternion.normSq q = 1) :
    ∃ θ a, 0 ≤ θ ∧ θ ≤ Real.pi ∧ a.dot a = 1 ∧ ofQuaternion q = turn θ a := by
  -- A quaternion and its opposite have one matrix, so its real part may be taken to be the cosine of at most
  -- a right angle.
  wlog hre : 0 ≤ q.re generalizing q with hpos
  · obtain ⟨θ, a, h₀, hπ, ha, h⟩ := @hpos (-q) (by rw [Quaternion.normSq_neg, hq])
      (by rw [Quaternion.re_neg]; linarith)
    refine ⟨θ, a, h₀, hπ, ha, h ▸ ?_⟩
    rw [← neg_one_smul ℝ q, ofQuaternion_smul]
    refine ext_get fun i j => ?_
    rw [get_scale]
    ring
  rw [Quaternion.normSq_def'] at hq
  obtain ⟨a, ha, hdirection⟩ := Vec3.exists_direction ⟨q.imI, q.imJ, q.imK⟩
  have hle : q.re ≤ 1 := by nlinarith [sq_nonneg q.imI, sq_nonneg q.imJ, sq_nonneg q.imK]
  have hnorm : (⟨q.imI, q.imJ, q.imK⟩ : Vec3 ℝ).norm = Real.sin (Real.arccos q.re) := by
    rw [Real.sin_arccos, Vec3.norm_eq]
    congr 1
    simp only [Vec3.dot]
    linarith
  refine ⟨2 * Real.arccos q.re, a, by linarith [Real.arccos_nonneg q.re], ?_, ha, ?_⟩
  · linarith [Real.arccos_le_pi_div_two.mpr hre]
  · rw [hnorm] at hdirection
    rw [turn_eq_ofQuaternion ha, mul_div_cancel_left₀ _ two_ne_zero, Real.cos_arccos (by linarith) hle]
    have hx : q.imI = _ := congrArg Vec3.x hdirection
    have hy : q.imJ = _ := congrArg Vec3.y hdirection
    have hz : q.imK = _ := congrArg Vec3.z hdirection
    exact congrArg ofQuaternion (Quaternion.ext _ _ rfl hx hy hz)

end Mat3

namespace Rotation

theorem one_add_hat_eq (w : Vec3 ℝ) : Mat3.one + Mat3.hat w =
    Mat3.ofQuaternion ((w.scale (1 / 2)).quaternion 1) - Mat3.ofQuaternion ((w.scale (1 / 2)).quaternion 0) := by
  refine Mat3.ext_get fun i j => ?_
  rw [Mat3.get_add, Mat3.get_sub, Mat3.get_ofQuaternion, Mat3.get_ofQuaternion, Mat3.hat_scale, Mat3.get_scale]
  ring

/-- The exponential of the vector is a rotation: the vector is zero or not below the small angle. -/
def Exact (w : Vec3 ℝ) : Prop := w = Vec3.zero ∨ smallAngle ≤ w.norm

/-- The exponential of a vector is the matrix of a quaternion, less that of a second one, which is zero but for
vectors below the small angle. -/
theorem exp_eq_ofQuaternion (w : Vec3 ℝ) : ∃ q p : Quaternion ℝ,
    exp w = Mat3.ofQuaternion q - Mat3.ofQuaternion p ∧ Quaternion.normSq q = 1 + Quaternion.normSq p ∧
    Quaternion.normSq p ≤ smallAngle ^ 2 / 4 ∧ (Exact w → p = 0) := by
  rcases lt_or_ge w.norm smallAngle with h | h
  · refine ⟨_, _, (if_pos h).trans (one_add_hat_eq w), ?_, ?_, ?_⟩
    · rw [Vec3.normSq_quaternion, Vec3.normSq_quaternion]
      ring
    · have hsq := mul_self_le_mul_self w.norm_nonneg h.le
      rw [Vec3.norm_mul_norm] at hsq
      rw [Vec3.normSq_quaternion, Vec3.dot_scale]
      linarith
    · rintro (rfl | hle)
      · exact Quaternion.ext _ _ rfl (mul_zero _) (mul_zero _) (mul_zero _)
      · exact absurd h (not_lt.mpr hle)
  · obtain ⟨a, ha, hw⟩ := w.exists_direction
    have hexp : exp w = Mat3.turn w.norm a := by
      conv_lhs => rw [hw]
      exact exp_scale ha h
    have hzero : ∀ i j, (Mat3.ofQuaternion 0).get i j = 0 := fun i j => by
      have hle := Mat3.abs_get_ofQuaternion_le 0 i j
      rwa [map_zero, abs_nonpos_iff] at hle
    refine ⟨(a.scale (Real.sin (w.norm / 2))).quaternion (Real.cos (w.norm / 2)), 0, ?_, ?_, ?_, fun _ => rfl⟩
    · rw [hexp, Mat3.turn_eq_ofQuaternion ha]
      refine Mat3.ext_get fun i j => ?_
      rw [Mat3.get_sub, hzero, sub_zero]
    · rw [map_zero, Vec3.normSq_quaternion, Vec3.dot_scale, ha, mul_one, add_zero, Real.cos_sq_add_sin_sq]
    · rw [map_zero]
      positivity

end Rotation
end BundleAdjustment
