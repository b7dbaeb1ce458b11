import BundleAdjustment.Proofs.Solver.Operators
import BundleAdjustment.Solver.ConjugateGradient

/-!
One step of conjugate gradients.

On a system that a matrix acts on (`Linear`), a direction has an image. Where that image shows no positive
curvature the iteration ends with a warning (`run_flat`); elsewhere it notes its step and moves on
(`run_moved`), to the end or to its next step. The states that it visits have vectors as long as the layout (`Sized`), and the metric
in which residuals are measured is positive, whatever the diagonal and the damping.
-/
namespace BundleAdjustment.Solver.System
open Matrix

variable {K : Type} [ExactScalar K] {s : System K}
  {A : Matrix (Fin s.layout.length) (Fin s.layout.length) K} {i : Iterate K} {hp : Vec K}

/-! ### The system -/

/-- A system on whose vectors the matrix `A` acts. -/
structure Linear (s : System K) (A : Matrix (Fin s.layout.length) (Fin s.layout.length) K) : Prop where
  rhs_size : s.rhs.size = s.layout.length
  diagonal_size : s.diagonal.size = s.layout.length
  apply_eq : ∀ v : Vec K, v.size = s.layout.length →
    ∃ hp, s.apply v = .ok hp ∧ hp.size = s.layout.length ∧
      hp.coords s.layout.length = A *ᵥ v.coords s.layout.length

/-- The matrix of a system, with the diagonal that it was given. Damping that is not positive is left out. -/
def operator (s : System K) : Matrix (Fin s.layout.length) (Fin s.layout.length) K :=
  hessianSum s.layout s.factors +
    max s.settings.damping 0 • Matrix.diagonal (s.diagonal.coords s.layout.length)

theorem operator_mulVec (v : Fin s.layout.length → K) : s.operator *ᵥ v =
    hessianSum s.layout s.factors *ᵥ v +
      max s.settings.damping 0 • (s.diagonal.coords s.layout.length * v) :=
  mulVec_damped _ _ v _

/-- Where the operators apply to the factors, the system is linear. -/
theorem linear_operator (hl : 0 ≤ s.layout.size) (happ : ∀ f ∈ s.factors, f.Applies s.layout)
    (hrhs : s.rhs.size = s.layout.length) (hdiag : s.diagonal.size = s.layout.length) :
    s.Linear s.operator := by
  refine ⟨hrhs, hdiag, fun v hv => ?_⟩
  obtain ⟨y, hy, hys, hyc⟩ := multiplyHessian_of_applies hl happ 1 hv
  rw [one_smul] at hyc
  have hscaled : (s.diagonal.scale s.settings.damping).size = s.layout.length :=
    (Vec.size_scale _ _).trans hdiag
  by_cases hpos : 0 < s.settings.damping
  · refine ⟨y + (s.diagonal.scale s.settings.damping).mul v, ?_, (Vec.size_add _ _).trans hys, ?_⟩
    · rw [apply, hy, ok_bind, if_pos hpos]
      rfl
    · rw [operator_mulVec, max_eq_left (le_of_lt hpos), Vec.coords_add hys, hyc, Vec.coords_mul hscaled,
        Vec.coords_scale _ hdiag, smul_mul_assoc]
  · refine ⟨y, ?_, hys, ?_⟩
    · rw [apply, hy, ok_bind, if_neg hpos]
      rfl
    · rw [operator_mulVec, max_eq_right (not_lt.mp hpos), zero_smul, add_zero, hyc]

theorem Linear.size_inverseMetric (hs : s.Linear A) : s.inverseMetric.size = s.layout.length := by
  unfold inverseMetric
  split
  · exact (Vec.size_map _ _).trans hs.diagonal_size
  · exact (Vec.size_map _ _).trans hs.rhs_size

/-- The preconditioner is positive, whatever the diagonal and the damping. -/
theorem Linear.inverseMetric_pos (hs : s.Linear A) (i : Fin s.layout.length) :
    0 < s.inverseMetric.coords s.layout.length i := by
  rw [Vec.coords_apply, inverseMetric]
  split
  · rw [Vec.get_map (hs.diagonal_size.symm ▸ i.isLt)]
    by_cases hm : 0 < s.diagonal.get i * (1 + s.settings.damping)
    · simp only [if_pos hm]
      exact one_div_pos.mpr hm
    · simp only [if_neg hm]
      exact one_pos
  · rw [Vec.get_map (hs.rhs_size.symm ▸ i.isLt)]
    exact one_pos

/-! ### The states -/

/-- A state whose vectors have the layout's places and whose length is that of its residual. -/
structure Sized (s : System K) (i : Iterate K) : Prop where
  x_size : i.x.size = s.layout.length
  r_size : i.r.size = s.layout.length
  p_size : i.p.size = s.layout.length
  length : i.length = i.r.norm

theorem Linear.sized_first (hs : s.Linear A) : s.Sized s.first where
  x_size := (Vec.size_zeros _).trans hs.rhs_size
  r_size := hs.rhs_size
  p_size := (Vec.size_mul _ _).trans hs.size_inverseMetric
  length := rfl

theorem Linear.coords_first (hs : s.Linear A) : s.first.x.coords s.layout.length = 0 := by
  show (Vec.zeros s.rhs.size : Vec K).coords s.layout.length = 0
  rw [hs.rhs_size, Vec.coords_zeros]

/-- The state that one step leads to, where the direction has the image `hp`. -/
def moved (s : System K) (i : Iterate K) (hp : Vec K) (a : K) : Iterate K where
  x := (advance i hp a).x
  r := (advance i hp a).r
  length := (advance i hp a).length
  p := s.inverseMetric.mul (advance i hp a).r +
    i.p.scale ((advance i hp a).r.dot (s.inverseMetric.mul (advance i hp a).r) / i.rz)
  rz := (advance i hp a).r.dot (s.inverseMetric.mul (advance i hp a).r)

namespace Sized
variable (h : s.Sized i)
include h

theorem moved (hs : s.Linear A) (hp : Vec K) (a : K) : s.Sized (s.moved i hp a) where
  x_size := (Vec.size_add _ _).trans h.x_size
  r_size := (Vec.size_sub _ _).trans h.r_size
  p_size := (Vec.size_add _ _).trans ((Vec.size_mul _ _).trans hs.size_inverseMetric)
  length := rfl

theorem coords_moved_x (a : K) : (s.moved i hp a).x.coords s.layout.length =
    i.x.coords s.layout.length + a • i.p.coords s.layout.length :=
  (Vec.coords_add h.x_size).trans (congrArg _ (Vec.coords_scale a h.p_size))

theorem coords_moved_r (hsize : hp.size = s.layout.length) (a : K) :
    (s.moved i hp a).r.coords s.layout.length =
      i.r.coords s.layout.length - a • hp.coords s.layout.length :=
  (Vec.coords_sub h.r_size).trans (congrArg _ (Vec.coords_scale a hsize))

theorem coords_moved_p (hs : s.Linear A) (a : K) : (s.moved i hp a).p.coords s.layout.length =
    s.inverseMetric.coords s.layout.length * (s.moved i hp a).r.coords s.layout.length +
      ((s.moved i hp a).rz / i.rz) • i.p.coords s.layout.length := by
  have hz : (s.inverseMetric.mul (s.moved i hp a).r).size = s.layout.length :=
    (Vec.size_mul _ _).trans hs.size_inverseMetric
  rw [← Vec.coords_scale _ h.p_size, ← Vec.coords_mul hs.size_inverseMetric, ← Vec.coords_add hz]
  rfl

theorem rz_moved (hs : s.Linear A) (hp : Vec K) (a : K) : (s.moved i hp a).rz =
    (s.moved i hp a).r.coords s.layout.length ⬝ᵥ
      (s.inverseMetric.coords s.layout.length * (s.moved i hp a).r.coords s.layout.length) := by
  rw [← Vec.coords_mul hs.size_inverseMetric, ← Vec.dot_eq (h.moved hs hp a).r_size]
  rfl

end Sized

/-! ### The step -/

theorem redirect_eq (hrz : i.rz ≠ 0) (hp : Vec K) (a : K) :
    s.redirect (advance i hp a) = .ok (s.moved i hp a) := by
  have hsame : ¬ Scalar.same i.rz 0 = true := by
    rw [Scalar.same_eq_decide, decide_eq_true_eq]
    exact hrz
  rw [redirect]
  show (if Scalar.same i.rz 0 = true then _ else _) = _
  rw [if_neg hsame]
  rfl

/-- A direction without positive curvature ends the run, with a warning. -/
theorem run_flat (happly : s.apply i.p = .ok hp) (hflat : i.p.dot hp ≤ 0) (fuel n : Nat)
    (notes : List (Event K)) : s.run (fuel + 1) n i notes =
      (.ok ⟨i.x, n, i.length, false⟩, notes ++ [.flatCurvature n (i.p.dot hp)]) := by
  rw [run.eq_def]
  simp only
  rw [Noted.lift_bind happly, if_pos hflat]
  rfl

/-- A step that leaves more than the threshold is noted, and leads to the next one. -/
theorem run_next {i' : Iterate K} (happly : s.apply i.p = .ok hp) (hcurv : ¬ i.p.dot hp ≤ 0)
    (hlarge : ¬ (advance i hp (i.rz / i.p.dot hp)).length ≤ s.threshold)
    (hnext : s.redirect (advance i hp (i.rz / i.p.dot hp)) = .ok i') (fuel n : Nat) (notes : List (Event K)) :
    s.run (fuel + 1) n i notes =
      s.run fuel (n + 1) i' (notes ++ [.stepTaken n (advance i hp (i.rz / i.p.dot hp)).length]) := by
  rw [run.eq_def]
  simp only
  rw [Noted.lift_bind happly, if_neg hcurv, if_neg hlarge, Noted.lift_bind hnext, Noted.note_bind]

/-- Along a direction with positive curvature the run notes its step and moves on, unless what remains
is small. -/
theorem run_moved (happly : s.apply i.p = .ok hp) (hcurv : 0 < i.p.dot hp) (hrz : i.rz ≠ 0) (fuel n : Nat)
    (notes : List (Event K)) : s.run (fuel + 1) n i notes =
      if (s.moved i hp (i.rz / i.p.dot hp)).length ≤ s.threshold then
        (.ok ⟨(s.moved i hp (i.rz / i.p.dot hp)).x, n, (s.moved i hp (i.rz / i.p.dot hp)).length, true⟩,
          notes ++ [.stepTaken n (s.moved i hp (i.rz / i.p.dot hp)).length])
      else s.run fuel (n + 1) (s.moved i hp (i.rz / i.p.dot hp))
        (notes ++ [.stepTaken n (s.moved i hp (i.rz / i.p.dot hp)).length]) := by
  have hlength : (advance i hp (i.rz / i.p.dot hp)).length = (s.moved i hp (i.rz / i.p.dot hp)).length := rfl
  by_cases hsmall : (s.moved i hp (i.rz / i.p.dot hp)).length ≤ s.threshold
  · rw [if_pos hsmall, run.eq_def]
    simp only
    rw [Noted.lift_bind happly, if_neg (not_le.mpr hcurv), Noted.note_bind, hlength, if_pos hsmall]
    rfl
  · rw [if_neg hsmall]
    exact run_next happly (not_le.mpr hcurv) hsmall (redirect_eq hrz hp _) fuel n notes

end BundleAdjustment.Solver.System
