import BundleAdjustment.Proofs.Geometry.Turns
import Mathlib.Analysis.Real.Pi.Bounds

/-!
The logarithm of a turn.

The logarithm of a matrix is its antisymmetric part, times a factor of the angle that the trace gives
(`Rotation.log_eq`). For a turn that angle is exact. Only the regulariser then keeps the exponential from
undoing the logarithm, by nothing to speak of unless the sine of the angle is as small as that
(`Rotation.exp_log_turn`), and the logarithm from undoing the exponential (`Tensor.rotation_axisAngle`).
A matrix that is a turn but for a small error in each entry has another angle. Near half a turn and near
none that is far from the angle of the turn, but for small angles the factor does not see it, so that up
to an angle of three the exponential still gives the matrix back (`Rotation.exp_log_near`).
-/
namespace BundleAdjustment
open Real

/-! ### The parts of a matrix -/

namespace Mat3

theorem vee_eq (M : Mat3 ℝ) : vee M =
    ⟨(M.row₂.y - M.row₁.z) / 2, (M.row₀.z - M.row₂.x) / 2, (M.row₁.x - M.row₀.y) / 2⟩ := by
  have h : (⟨(M.row₂.y - M.row₁.z) / 2.0, (M.row₀.z - M.row₂.x) / 2.0, (M.row₁.x - M.row₀.y) / 2.0⟩ : Vec3 ℝ) =
      ⟨(M.row₂.y - M.row₁.z) / 2, (M.row₀.z - M.row₂.x) / 2, (M.row₁.x - M.row₀.y) / 2⟩ := by
    norm_num
  exact h

theorem vee_sub_one (M : Mat3 ℝ) : vee (M - one) = vee M := by
  rw [vee_eq, vee_eq]
  simp [sub_eq, Vec3.sub_eq, one]

theorem vee_sub_transpose (M : Mat3 ℝ) : vee (M - M.transpose) = (vee M).scale 2 := by
  rw [vee_eq, vee_eq]
  simp only [sub_eq, Vec3.sub_eq, transpose, Vec3.scale, Vec3.mk.injEq]
  exact ⟨by ring, by ring, by ring⟩

theorem vee_turn (θ : ℝ) (a : Vec3 ℝ) : vee (turn θ a) = a.scale (sin θ) := by
  rw [vee_eq]
  simp only [turn, add_eq, scale, Vec3.add_eq, Vec3.scale, hat, one, outer, Vec3.mk.injEq]
  exact ⟨by ring, by ring, by ring⟩

theorem trace_turn (θ : ℝ) {a : Vec3 ℝ} (ha : a.dot a = 1) : (turn θ a).trace = 1 + 2 * cos θ := by
  simp only [Vec3.dot] at ha
  simp only [Mat3.trace, turn, add_eq, scale, Vec3.add_eq, Vec3.scale, hat, one, outer, mul_one, mul_zero, add_zero]
  linear_combination (1 - cos θ) * ha

/-- The vectors of close matrices are close. -/
theorem Within.vee {κ : ℝ} {M N : Mat3 ℝ} (h : Within κ M N) (i : Nat) : |M.vee.get i - N.vee.get i| ≤ κ := by
  have hhalf : ∀ {a b c d : ℝ}, |a - b| ≤ κ → |c - d| ≤ κ → |(a - c) / 2 - (b - d) / 2| ≤ κ := by
    intro a b c d hab hcd
    rw [abs_le] at *
    constructor <;> linarith
  rw [vee_eq, vee_eq]
  rcases i with _ | _ | i
  · exact hhalf (h 2 1) (h 1 2)
  · exact hhalf (h 0 2) (h 2 0)
  · exact hhalf (h 1 0) (h 0 1)

theorem Within.trace {κ : ℝ} {M N : Mat3 ℝ} (h : Within κ M N) : |M.trace - N.trace| ≤ 3 * κ := by
  have h₀ := h 0 0
  have h₁ := h 1 1
  have h₂ := h 2 2
  simp only [get, Vec3.get] at h₀ h₁ h₂
  rw [abs_le] at *
  rw [Mat3.trace, Mat3.trace]
  constructor <;> linarith

end Mat3

namespace Rotation

theorem regulariser_eq : (regulariser : ℝ) = 1e-12 := rfl

theorem regulariser_pos : (0 : ℝ) < regulariser := by
  rw [regulariser_eq]
  norm_num

/-- What the logarithm multiplies the antisymmetric part by. -/
noncomputable def logFactor (θ : ℝ) : ℝ :=
  if θ < smallAngle then 1 else (θ + θ) / (sin θ + sin θ + regulariser)

theorem logFactor_of_le {θ : ℝ} (h : smallAngle ≤ θ) : logFactor θ = 2 * θ / (2 * sin θ + regulariser) := by
  rw [logFactor, if_neg (not_lt.mpr h), two_mul, two_mul]

theorem log_eq (M : Mat3 ℝ) : log M = M.vee.scale (logFactor (angleOfTrace M.trace)) := by
  rw [log, logTrace]
  split
  · rename_i h
    rw [Mat3.vee_sub_one, logFactor, if_pos h]
    simp [Vec3.scale]
  · rename_i h
    have htwo : ∀ θ : ℝ, θ / (2.0 * sin θ + regulariser) * 2 = 2 * θ / (2 * sin θ + regulariser) := fun θ => by
      have h : (2.0 : ℝ) = 2 := by norm_num
      rw [h]
      ring
    rw [Mat3.vee_sub_transpose, logFactor_of_le (not_lt.mp h), ← htwo]
    simp only [Vec3.scale, Vec3.mk.injEq]
    exact ⟨(mul_assoc ..).symm, (mul_assoc ..).symm, (mul_assoc ..).symm⟩

/-! ### The angle of a trace -/

theorem angleOfTrace_eq (t : ℝ) : angleOfTrace t = arccos (max (-1) (min 1 ((t - 1) / 2))) := by
  have hclamp : ∀ x : ℝ, Scalar.clamp (-1) 1 x = max (-1) (min 1 x) := fun x => by
    rw [Scalar.clamp]
    split
    · rename_i h
      rw [max_eq_left]
      exact (min_le_right _ _).trans h.le
    · split
      · rename_i h
        rw [min_eq_left h.le, max_eq_right (by norm_num)]
      · rename_i h h'
        rw [min_eq_right (not_lt.mp h'), max_eq_right (not_lt.mp h)]
  have htwo : ((t - 1) / 2.0 : ℝ) = (t - 1) / 2 := by norm_num
  rw [← hclamp, ← htwo]
  rfl

theorem angleOfTrace_nonneg (t : ℝ) : 0 ≤ angleOfTrace t := arccos_nonneg _

theorem angleOfTrace_le_pi (t : ℝ) : angleOfTrace t ≤ π := arccos_le_pi _

theorem cos_angleOfTrace (t : ℝ) : cos (angleOfTrace t) = max (-1) (min 1 ((t - 1) / 2)) := by
  rw [angleOfTrace_eq, cos_arccos (le_max_left _ _)]
  exact max_le (by norm_num) (min_le_left _ _)

theorem angleOfTrace_turn {θ : ℝ} {a : Vec3 ℝ} (ha : a.dot a = 1) (h₀ : 0 ≤ θ) (hπ : θ ≤ π) :
    angleOfTrace (Mat3.turn θ a).trace = θ := by
  have hcos : (1 + 2 * cos θ - 1) / 2 = cos θ := by ring
  rw [angleOfTrace_eq, Mat3.trace_turn θ ha, hcos, min_eq_right (cos_le_one θ), max_eq_right (neg_one_le_cos θ),
    arccos_cos h₀ hπ]

/-- The angle of a matrix that is close to a turn has a close cosine. -/
theorem abs_cos_angle_sub_le {κ θ : ℝ} {M : Mat3 ℝ} {a : Vec3 ℝ} (ha : a.dot a = 1)
    (h : M.Within κ (Mat3.turn θ a)) : |cos (angleOfTrace M.trace) - cos θ| ≤ 3 * κ / 2 := by
  have htrace := h.trace
  rw [Mat3.trace_turn θ ha] at htrace
  have hclose : |(M.trace - 1) / 2 - cos θ| ≤ 3 * κ / 2 := by
    rw [abs_le] at *
    constructor <;> linarith
  -- The clamp keeps the cosine of the turn, and does not take others further from it.
  have hkeep : cos θ = max (-1) (min 1 (cos θ)) := by
    rw [min_eq_right (cos_le_one θ), max_eq_right (neg_one_le_cos θ)]
  rw [cos_angleOfTrace, hkeep]
  refine (abs_max_sub_max_le_max _ _ _ _).trans ?_
  rw [sub_self, abs_zero]
  refine max_le ((abs_nonneg _).trans hclose) ((abs_min_sub_min_le_max _ _ _ _).trans ?_)
  rw [sub_self, abs_zero]
  exact max_le ((abs_nonneg _).trans hclose) hclose

/-! ### The factor of the logarithm -/

/-- Between two angles that add up to half a turn the sine is not below six tenths of the lesser. -/
theorem sin_ge {m θ : ℝ} (hm : 0 ≤ m) (h₀ : m ≤ θ) (hπ : θ ≤ π - m) : 0.6 * m ≤ sin θ := by
  have hslope : (0.6 : ℝ) ≤ 2 / π := by
    rw [le_div_iff₀ pi_pos]
    nlinarith [pi_lt_d2]
  rcases le_total θ (π / 2) with h | h
  · have hsin := mul_le_sin (hm.trans h₀) h
    nlinarith [mul_le_mul hslope h₀ hm (by positivity)]
  · have hsin := mul_le_sin (x := π - θ) (by linarith) (by linarith)
    rw [sin_pi_sub] at hsin
    nlinarith [mul_le_mul hslope (by linarith : m ≤ π - θ) hm (by positivity)]

/-- Up to an angle the sine is the angle but for its cube. -/
theorem abs_sin_sub_self_le {θ c : ℝ} (h₀ : 0 ≤ θ) (hc : θ ≤ c) : |sin θ - θ| ≤ c ^ 3 / 6 := by
  have hcube : θ ^ 3 ≤ c ^ 3 := pow_le_pow_left₀ h₀ hc 3
  have hpos : 0 ≤ θ ^ 3 := pow_nonneg h₀ 3
  rw [abs_le]
  constructor
  · linarith [sin_ge_sub_cube h₀]
  · linarith [sin_le h₀]

theorem logFactor_nonneg {θ : ℝ} (h₀ : 0 ≤ θ) (hπ : θ ≤ π) : 0 ≤ logFactor θ := by
  rcases lt_or_ge θ smallAngle with hθ | hθ
  · rw [logFactor, if_pos hθ]
    exact zero_le_one
  · have hsin := sin_nonneg_of_nonneg_of_le_pi h₀ hπ
    rw [logFactor_of_le hθ, regulariser_eq]
    positivity

/-- On what is close to the sine of an angle the factor gives what is close to the angle. -/
theorem abs_logFactor_mul_sub_le {θ r γ : ℝ} (h : smallAngle ≤ θ) (hsin : 0 < sin θ) (hr : |r - sin θ| ≤ γ) :
    |logFactor θ * r - θ| ≤ θ * (γ + regulariser / 2) / sin θ := by
  have hθ : 0 < θ := smallAngle_pos.trans_le h
  have hε := regulariser_pos
  have hden : 0 < 2 * sin θ + regulariser := by linarith
  have hdiff : logFactor θ * r - θ = θ * (2 * (r - sin θ) - regulariser) / (2 * sin θ + regulariser) := by
    rw [logFactor_of_le h]
    field_simp
    ring
  have hnum : |θ * (2 * (r - sin θ) - regulariser)| ≤ θ * (2 * γ + regulariser) := by
    rw [abs_mul, abs_of_pos hθ]
    refine mul_le_mul_of_nonneg_left ?_ hθ.le
    rw [abs_le] at *
    constructor <;> linarith
  have hγ : 0 ≤ γ := (abs_nonneg _).trans hr
  calc |logFactor θ * r - θ| = |θ * (2 * (r - sin θ) - regulariser)| / (2 * sin θ + regulariser) := by
        rw [hdiff, abs_div, abs_of_pos hden]
    _ ≤ θ * (2 * γ + regulariser) / (2 * sin θ) := by gcongr; linarith
    _ = θ * (γ + regulariser / 2) / sin θ := by
        field_simp

/-- For a small angle the factor is close to one. -/
theorem abs_logFactor_sub_one_le {θ : ℝ} (h₀ : 0 ≤ θ) (h : θ ≤ 7e-3) : |logFactor θ - 1| ≤ 1e-5 := by
  rcases lt_or_ge θ smallAngle with hθ | hθ
  · rw [logFactor, if_pos hθ]
    norm_num
  · rw [logFactor_of_le hθ]
    rw [smallAngle_eq] at hθ
    have hupper : sin θ ≤ θ := sin_le h₀
    have hlower : θ * (1 - 8.2e-6) ≤ sin θ := by
      have hcube := sin_ge_sub_cube h₀
      nlinarith [mul_nonneg h₀ (mul_nonneg (sub_nonneg.mpr h) (add_nonneg h₀ (by norm_num : (0 : ℝ) ≤ 7e-3)))]
    have hden : 0 < 2 * sin θ + regulariser := by
      rw [regulariser_eq]
      nlinarith
    rw [div_sub_one hden.ne', abs_div, abs_of_pos hden, div_le_iff₀ hden, abs_le, regulariser_eq]
    constructor <;> nlinarith

/-! ### Turns -/

theorem log_turn {θ : ℝ} {a : Vec3 ℝ} (ha : a.dot a = 1) (h₀ : 0 ≤ θ) (hπ : θ ≤ π) :
    log (Mat3.turn θ a) = a.scale (logFactor θ * sin θ) := by
  rw [log_eq, angleOfTrace_turn ha h₀ hπ, Mat3.vee_turn]
  simp only [Vec3.scale, mul_assoc]

/-- For a turn that is not within the small angle of half a turn, the exponential of the logarithm is the turn,
but for a millionth in each entry. -/
theorem exp_log_turn {θ : ℝ} {a : Vec3 ℝ} (ha : a.dot a = 1) (h₀ : 0 ≤ θ) (hπ : θ ≤ π - smallAngle) :
    (exp (log (Mat3.turn θ a))).Within 1e-6 (Mat3.turn θ a) := by
  have hle : θ ≤ π := hπ.trans (by linarith [smallAngle_pos])
  have hsin := sin_nonneg_of_nonneg_of_le_pi h₀ hle
  have hangle : |logFactor θ * sin θ - θ| ≤ 4e-7 := by
    rcases lt_or_ge θ smallAngle with h | h
    · rw [logFactor, if_pos h, one_mul]
      rw [smallAngle_eq] at h
      exact (abs_sin_sub_self_le h₀ h.le).trans (by norm_num)
    · have hge := sin_ge smallAngle_pos.le h hπ
      rw [smallAngle_eq] at hge
      have hpos : 0 < sin θ := lt_of_lt_of_le (by norm_num) hge
      refine (abs_logFactor_mul_sub_le h hpos (by rw [sub_self, abs_zero])).trans ?_
      rw [regulariser_eq, div_le_iff₀ hpos]
      nlinarith [pi_lt_d2]
  rw [log_turn ha h₀ hle]
  have hexp := exp_scale_within ha (mul_nonneg (logFactor_nonneg h₀ hle) hsin)
  have hturn := Mat3.turn_within (β := 0) ha ha ((abs_cos_sub_cos_le _ θ).trans hangle)
    ((abs_sin_sub_sin_le _ θ).trans hangle) (fun i => by rw [sub_self, abs_zero])
  refine (hexp.trans hturn).mono ?_
  rw [smallAngle_eq]
  norm_num

/-! ### What is close to a turn -/

/-- The error in an entry of a product of two first-order rotations. -/
noncomputable def entryError : ℝ := 1.01e-10

/-- The logarithm of what is close to a turn goes along a unit vector, and half the antisymmetric part has
nearly the sine of the turn as its length. -/
theorem log_near {θ : ℝ} {M : Mat3 ℝ} {a : Vec3 ℝ} (ha : a.dot a = 1) (h₀ : 0 ≤ θ) (hπ : θ ≤ π)
    (h : M.Within entryError (Mat3.turn θ a)) : ∃ (r : ℝ) (b : Vec3 ℝ), 0 ≤ r ∧ b.dot b = 1 ∧
      log M = b.scale (logFactor (angleOfTrace M.trace) * r) ∧ |r - sin θ| ≤ 2 * entryError ∧
      ∀ i, |r * b.get i - sin θ * a.get i| ≤ entryError := by
  have hκ : 0 ≤ entryError := by
    rw [entryError]
    norm_num
  obtain ⟨b, hb, hvee⟩ := M.vee.exists_direction
  have hentries : ∀ i, |(M.vee - a.scale (sin θ)).get i| ≤ entryError := fun i => by
    rw [Vec3.get_sub, ← Mat3.vee_turn]
    exact h.vee i
  refine ⟨M.vee.norm, b, M.vee.norm_nonneg, hb, ?_, ?_, fun i => ?_⟩
  · conv_lhs => rw [log_eq, hvee]
    simp only [Vec3.scale, mul_assoc]
  · have hnorm := M.vee.abs_norm_sub_le (a.scale (sin θ))
    rw [norm_scale_of_unit ha (sin_nonneg_of_nonneg_of_le_pi h₀ hπ)] at hnorm
    exact hnorm.trans (Vec3.norm_le_of_get hκ hentries)
  · have hi := hentries i
    rwa [hvee, Vec3.get_sub, Vec3.get_scale, Vec3.get_scale] at hi

/-- Sines and cosines of two angles differ by as much, each times its sum. -/
theorem abs_sin_sub_mul (x y : ℝ) :
    |sin x - sin y| * |sin x + sin y| = |cos x - cos y| * |cos x + cos y| := by
  have h : (sin x - sin y) * (sin x + sin y) = -((cos x - cos y) * (cos x + cos y)) := by
    linear_combination sin_sq_add_cos_sq x - sin_sq_add_cos_sq y
  rw [← abs_mul, ← abs_mul, h, abs_neg]

/-- The sine of an angle, from its cosine. -/
theorem abs_sin_sub_mul_le {x y κ : ℝ} (hy : 0 ≤ sin y) (h : |cos x - cos y| ≤ κ) :
    |sin x - sin y| * sin x ≤ κ * 2 := by
  have hsum : |cos x + cos y| ≤ 2 :=
    abs_le.mpr ⟨by linarith [neg_one_le_cos x, neg_one_le_cos y], by linarith [cos_le_one x, cos_le_one y]⟩
  calc |sin x - sin y| * sin x ≤ |sin x - sin y| * |sin x + sin y| :=
        mul_le_mul_of_nonneg_left (le_abs.mpr (.inl (by linarith))) (abs_nonneg _)
    _ = |cos x - cos y| * |cos x + cos y| := abs_sin_sub_mul x y
    _ ≤ κ * 2 := mul_le_mul h hsum (abs_nonneg _) ((abs_nonneg _).trans h)

/-- From a small angle up to an angle of three, the factor turns what is close to the sine into what is close to
the angle. -/
theorem abs_logFactor_mul_sub_le_of_large {θ r : ℝ} (hsmall : 7e-3 ≤ θ) (hlarge : θ ≤ 3) (hsin : 4.2e-3 ≤ sin θ)
    (hr : |r - sin θ| ≤ 2.02e-10 + 3.03e-10 / sin θ) : |logFactor θ * r - θ| ≤ 1.5e-7 := by
  have hpos : 0 < sin θ := by linarith
  have hstart : smallAngle ≤ θ := by
    rw [smallAngle_eq]
    linarith
  refine (abs_logFactor_mul_sub_le hstart hpos hr).trans ?_
  rw [div_le_iff₀ hpos, regulariser_eq]
  -- Either the angle is in proportion to its sine, or the sine is far from zero.
  rcases le_total θ (π / 2) with h | h
  · have hge : 0.6 * θ ≤ sin θ := sin_ge (hsmall.trans' (by norm_num)) le_rfl (by linarith)
    have hquot : 3.03e-10 / sin θ ≤ 7.22e-8 := by
      rw [div_le_iff₀ hpos]
      linarith
    calc θ * (2.02e-10 + 3.03e-10 / sin θ + 1e-12 / 2) ≤ θ * 8e-8 :=
          mul_le_mul_of_nonneg_left (by linarith) (by linarith)
      _ ≤ 1.5e-7 * sin θ := by linarith
  · have hge := sin_ge (m := 0.14) (θ := θ) (by norm_num) (by linarith [pi_gt_d2]) (by linarith [pi_gt_d2])
    have hquot : 3.03e-10 / sin θ ≤ 3.7e-9 := by
      rw [div_le_iff₀ hpos]
      linarith
    calc θ * (2.02e-10 + 3.03e-10 / sin θ + 1e-12 / 2) ≤ 3 * 4e-9 :=
          mul_le_mul hlarge (by linarith) (by positivity) (by norm_num)
      _ ≤ 1.5e-7 * sin θ := by linarith

/-- Vectors that are close and of close lengths have close directions, the closer the longer they are. -/
theorem mul_abs_direction_sub_le {r s ε δ : ℝ} {a b : Vec3 ℝ} (ha : a.dot a = 1) (hr : 0 ≤ r) (hlength : |r - s| ≤ δ)
    (h : ∀ i, |r * b.get i - s * a.get i| ≤ ε) (i : Nat) : r * |b.get i - a.get i| ≤ ε + δ := by
  have hdiff : r * (b.get i - a.get i) = (r * b.get i - s * a.get i) - (r - s) * a.get i := by
    ring
  calc r * |b.get i - a.get i| = |r * (b.get i - a.get i)| := by rw [abs_mul, abs_of_nonneg hr]
    _ ≤ ε + δ := by
        rw [hdiff]
        exact abs_sub_le_of_le (h i) (abs_mul_le_left hlength (Mat3.abs_get_le_one ha i))

section Near
variable {θ θ₀ r : ℝ} {a b : Vec3 ℝ} (ha : a.dot a = 1) (hb : b.dot b = 1) (hr₀ : 0 ≤ r) (h₀ : 0 ≤ θ₀) (hπ : θ₀ ≤ π)
  (hcos : |cos θ - cos θ₀| ≤ 3 * entryError / 2) (hr : |r - sin θ₀| ≤ 2 * entryError)
  (haxis : ∀ i, |r * b.get i - sin θ₀ * a.get i| ≤ entryError)
include ha hb hr₀ h₀ hπ hcos hr haxis

/-- Below a small angle the length of the antisymmetric part gives the turn, whatever the angle. -/
theorem turn_within_of_small (hθ : 0 ≤ θ) (hsmall : θ ≤ 7e-3) :
    (Mat3.turn (logFactor θ * r) b).Within 5e-7 (Mat3.turn θ₀ a) := by
  rw [entryError] at hcos hr haxis
  have hsin₀ := sin_nonneg_of_nonneg_of_le_pi h₀ hπ
  have hcos₀ : 1 - 2.46e-5 ≤ cos θ₀ := by
    nlinarith [one_sub_sq_div_two_le_cos (x := θ), abs_le.mp hcos]
  have hsinle : sin θ₀ ≤ 7.02e-3 := by
    nlinarith [sin_sq_add_cos_sq θ₀, cos_le_one θ₀]
  have hrle : r ≤ 7.03e-3 := by
    linarith [(abs_le.mp hr).2]
  obtain ⟨φ, hφ⟩ : ∃ φ, φ = logFactor θ * r := ⟨_, rfl⟩
  have hφr : |φ - r| ≤ 7.03e-8 := by
    have hdiff : φ - r = (logFactor θ - 1) * r := by
      rw [hφ]
      ring
    rw [hdiff, abs_mul, abs_of_nonneg hr₀]
    nlinarith [mul_le_mul (abs_logFactor_sub_one_le hθ hsmall) hrle hr₀ (by norm_num)]
  have hφ₀ : 0 ≤ φ := hφ ▸ mul_nonneg (logFactor_nonneg hθ (by linarith [pi_gt_three])) hr₀
  have hφle : φ ≤ 7.04e-3 := by
    linarith [(abs_le.mp hφr).2]
  -- The sine of the new angle is the length of the antisymmetric part.
  have hsine : |sin φ - r| ≤ 1.3e-7 := by
    have hstep := (abs_sub_le (sin φ) φ r).trans (add_le_add (abs_sin_sub_self_le hφ₀ hφle) hφr)
    exact hstep.trans (by norm_num)
  have hcosφ : 0.99 ≤ cos φ := by
    nlinarith [one_sub_sq_div_two_le_cos (x := φ)]
  have hsines : |sin φ - sin θ₀| ≤ 1.31e-7 := by
    rw [abs_le] at hsine hr ⊢
    constructor <;> linarith
  have hcosines : |cos φ - cos θ₀| ≤ 1e-8 := by
    have hsin₁ : |sin φ + sin θ₀| ≤ 0.0142 :=
      abs_le.mpr ⟨by linarith [(abs_le.mp hsine).1], by linarith [sin_le hφ₀]⟩
    have hcos₁ : 1 ≤ |cos φ + cos θ₀| := le_abs.mpr (.inl (by linarith))
    calc |cos φ - cos θ₀| ≤ |cos φ - cos θ₀| * |cos φ + cos θ₀| := le_mul_of_one_le_right (abs_nonneg _) hcos₁
      _ = |sin φ - sin θ₀| * |sin φ + sin θ₀| := (abs_sin_sub_mul φ θ₀).symm
      _ ≤ 1.31e-7 * 0.0142 := mul_le_mul hsines hsin₁ (abs_nonneg _) (by norm_num)
      _ ≤ 1e-8 := by norm_num
  rw [← hφ]
  refine (Mat3.turn_within_of_sine hb ha (by linarith) (by linarith) hcosines (σ := 1.31e-7) fun i => ?_).mono
    (by norm_num)
  have hdiff : sin φ * b.get i - sin θ₀ * a.get i =
      (sin φ - r) * b.get i + (r * b.get i - sin θ₀ * a.get i) := by
    ring
  rw [hdiff]
  refine (abs_add_le_of_le (abs_mul_le_left hsine (Mat3.abs_get_le_one hb i)) (haxis i)).trans ?_
  norm_num

/-- From a small angle up to an angle of three the angle gives the turn. -/
theorem turn_within_of_large (hsmall : 7e-3 ≤ θ) (hlarge : θ ≤ 3) :
    (Mat3.turn (logFactor θ * r) b).Within 8e-7 (Mat3.turn θ₀ a) := by
  rw [entryError] at hcos hr haxis
  have hsin₀ := sin_nonneg_of_nonneg_of_le_pi h₀ hπ
  have hsinθ : 4.2e-3 ≤ sin θ := by
    have hge := sin_ge (m := 7e-3) (by norm_num) hsmall (by linarith [pi_gt_d2])
    linarith
  have hpos : 0 < sin θ := by linarith
  have hsines : |sin θ - sin θ₀| ≤ 3.03e-10 / sin θ := by
    rw [le_div_iff₀ hpos]
    exact (abs_sin_sub_mul_le hsin₀ hcos).trans (by norm_num)
  have hlength : |r - sin θ| ≤ 2.02e-10 + 3.03e-10 / sin θ := by
    rw [abs_le] at hsines hr ⊢
    constructor <;> linarith
  have hangle := abs_logFactor_mul_sub_le_of_large hsmall hlarge hsinθ hlength
  have hquot : 3.03e-10 / sin θ ≤ 7.3e-8 := by
    rw [div_le_iff₀ hpos]
    linarith
  have hr₁ : 4.1e-3 ≤ r := by
    linarith [(abs_le.mp hlength).1]
  have hdirection : ∀ i, |b.get i - a.get i| ≤ 7.5e-8 := fun i => by
    have hbound := mul_abs_direction_sub_le ha hr₀ hr haxis i
    nlinarith [abs_nonneg (b.get i - a.get i)]
  have hcosines : |cos (logFactor θ * r) - cos θ₀| ≤ 1.6e-7 := by
    have hstep := (abs_cos_sub_cos_le (logFactor θ * r) θ).trans hangle
    refine (abs_sub_le _ (cos θ) _).trans ((add_le_add hstep hcos).trans ?_)
    norm_num
  have hsines' : |sin (logFactor θ * r) - sin θ₀| ≤ 2.3e-7 := by
    have hstep := (abs_sin_sub_sin_le (logFactor θ * r) θ).trans hangle
    refine (abs_sub_le _ (sin θ) _).trans ((add_le_add hstep (hsines.trans hquot)).trans ?_)
    norm_num
  exact (Mat3.turn_within hb ha hcosines hsines' hdirection).mono (by norm_num)

end Near

/-- For what is close to a turn and has an angle of at most three, the exponential of the logarithm is it, but
for a millionth in each entry. -/
theorem exp_log_near {θ : ℝ} {M : Mat3 ℝ} {a : Vec3 ℝ} (ha : a.dot a = 1) (h₀ : 0 ≤ θ) (hπ : θ ≤ π)
    (h : M.Within entryError (Mat3.turn θ a)) (hangle : angleOfTrace M.trace ≤ 3) :
    (exp (log M)).Within 1e-6 M := by
  obtain ⟨r, b, hr₀, hb, hlog, hr, haxis⟩ := log_near ha h₀ hπ h
  have hcos := abs_cos_angle_sub_le ha h
  have hnonneg := mul_nonneg (logFactor_nonneg (angleOfTrace_nonneg M.trace) (angleOfTrace_le_pi M.trace)) hr₀
  have hexp := exp_scale_within hb hnonneg
  rw [← hlog] at hexp
  have hturn : (Mat3.turn (logFactor (angleOfTrace M.trace) * r) b).Within 8e-7 (Mat3.turn θ a) := by
    rcases le_total (angleOfTrace M.trace) 7e-3 with hsmall | hsmall
    · exact (turn_within_of_small ha hb hr₀ h₀ hπ hcos hr haxis (angleOfTrace_nonneg _) hsmall).mono (by norm_num)
    · exact turn_within_of_large ha hb hr₀ h₀ hπ hcos hr haxis hsmall hangle
  refine ((hexp.trans hturn).trans h.symm).mono ?_
  rw [smallAngle_eq, entryError]
  norm_num

/-! ### Logarithms of exponentials -/

/-- Below the small angle the exponential and the logarithm are of first order, and each undoes the other. -/
theorem log_exp_of_lt {w : Vec3 ℝ} (h : w.norm < smallAngle) : log (exp w) = w := by
  have hexp : exp w = Mat3.one + Mat3.hat w := if_pos h
  have hangle : angleOfTrace (Mat3.one + Mat3.hat w).trace = 0 := by
    rw [angleOfTrace_eq]
    norm_num [Mat3.trace, Mat3.add_eq, Vec3.add_eq, Mat3.one, Mat3.hat]
  have hvee : (Mat3.one + Mat3.hat w).vee = w := by
    rw [Mat3.vee_eq]
    simp [Mat3.add_eq, Vec3.add_eq, Mat3.one, Mat3.hat]
  rw [hexp, log_eq, hangle, hvee, logFactor, if_pos smallAngle_pos]
  simp [Vec3.scale]

/-- From the small angle to half a turn the logarithm undoes the exponential but for its regulariser. -/
theorem log_exp_of_le {w : Vec3 ℝ} (h : smallAngle ≤ w.norm) (hπ : w.norm ≤ π) :
    log (exp w) = w.scale (2 * sin w.norm / (2 * sin w.norm + regulariser)) := by
  obtain ⟨a, ha, hw⟩ := w.exists_direction
  have h₀ := w.norm_nonneg
  generalize w.norm = θ at *
  rw [hw, exp_scale ha h, log_turn ha h₀ hπ, logFactor_of_le h]
  simp only [Vec3.scale, Vec3.mk.injEq]
  exact ⟨by ring, by ring, by ring⟩

/-- What the regulariser takes from a vector. -/
theorem norm_log_exp_sub_le {w : Vec3 ℝ} (h : smallAngle ≤ w.norm) (hπ : w.norm < π) :
    (log (exp w) - w).norm ≤ w.norm * regulariser / (2 * sin w.norm) := by
  have hsin : 0 < sin w.norm := sin_pos_of_pos_of_lt_pi (smallAngle_pos.trans_le h) hπ
  have hε := regulariser_pos
  have hdiff : log (exp w) - w = w.scale (-(regulariser / (2 * sin w.norm + regulariser))) := by
    rw [log_exp_of_le h hπ.le]
    generalize sin w.norm = s at *
    refine Vec3.ext ?_ ?_ ?_
    all_goals
      simp only [Vec3.sub_eq, Vec3.scale]
      field_simp
      ring
  rw [hdiff, Vec3.norm_scale_eq_abs, abs_neg, abs_of_pos (by positivity)]
  calc regulariser / (2 * sin w.norm + regulariser) * w.norm
      = w.norm * regulariser / (2 * sin w.norm + regulariser) := by ring
    _ ≤ w.norm * regulariser / (2 * sin w.norm) := by
        gcongr
        · exact mul_nonneg w.norm_nonneg hε.le
        · linarith

end Rotation

namespace Tensor

/-- **The logarithm of an exponential.** Below the small angle it is the vector itself. From there to half a turn
the regulariser shortens the vector, by at most the angle times its ratio to twice the sine. -/
theorem rotation_axisAngle {w : Fin 3 → ℝ} {θ : ℝ} (hθ : θ = √(∑ i, w i ^ 2)) (hπ : θ < π) :
    ∃ (R : Mat3 ℝ) (u : Fin 3 → ℝ), (ofVec (Vec.ofCoords w)).rotation = .ok R ∧
      (ofMat R.toMat).axisAngle = .ok (Vec3.ofCoords u) ∧ (θ < 1e-5 → u = w) ∧
      (1e-5 ≤ θ → (∀ i, u i = w i * (2 * sin θ / (2 * sin θ + 1e-12))) ∧
        √(∑ i, (u i - w i) ^ 2) ≤ θ * 1e-12 / (2 * sin θ)) := by
  have hnorm : θ = (Vec3.ofCoords w).norm := hθ.trans (Vec3.norm_ofCoords w).symm
  refine ⟨Rotation.exp (Vec3.ofCoords w), (Rotation.log (Rotation.exp (Vec3.ofCoords w))).coords, ?_, ?_,
    fun h => ?_, fun h => ⟨fun i => ?_, ?_⟩⟩
  · rw [← Vec3.toVec_ofCoords, rotation_toVec]
  · rw [axisAngle_toMat, Vec3.ofCoords_coords]
  · rw [Rotation.log_exp_of_lt (hnorm ▸ h)]
    ext i
    fin_cases i <;> rfl
  · rw [Rotation.log_exp_of_le (hnorm ▸ h) (hnorm ▸ hπ.le), ← hnorm, mul_comm (w i)]
    fin_cases i <;> rfl
  · have hle := Rotation.norm_log_exp_sub_le (w := Vec3.ofCoords w) (hnorm ▸ h) (hnorm ▸ hπ)
    rw [← hnorm] at hle
    refine le_of_eq_of_le ?_ hle
    rw [← Vec3.norm_ofCoords]
    rfl

/-- The vector of length three along the coordinates one, two and two is within half a turn. -/
theorem rotation_axisAngle_three : ∃ (R : Mat3 ℝ) (u : Fin 3 → ℝ), 3 < π ∧
    (ofVec (Vec.ofCoords ![1, 2, 2])).rotation = .ok R ∧ (ofMat R.toMat).axisAngle = .ok (Vec3.ofCoords u) ∧
    u 0 = 2 * sin 3 / (2 * sin 3 + 1e-12) ∧
    √(∑ i, (u i - ![1, 2, 2] i) ^ 2) ≤ 3 * 1e-12 / (2 * sin 3) := by
  have hlength : (3 : ℝ) = √(∑ i, (![1, 2, 2] : Fin 3 → ℝ) i ^ 2) := by
    have hsum : ∑ i, (![1, 2, 2] : Fin 3 → ℝ) i ^ 2 = 3 ^ 2 := by
      simp [Fin.sum_univ_three]
      norm_num
    rw [hsum, Real.sqrt_sq (by norm_num)]
  obtain ⟨R, u, hR, hu, -, h⟩ := rotation_axisAngle hlength pi_gt_three
  obtain ⟨hcoords, hbound⟩ := h (by norm_num)
  exact ⟨R, u, pi_gt_three, hR, hu, by simpa using hcoords 0, hbound⟩

end Tensor
end BundleAdjustment
