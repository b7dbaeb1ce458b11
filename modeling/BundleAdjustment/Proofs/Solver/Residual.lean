import BundleAdjustment.Proofs.Solver.Iteration
import BundleAdjustment.Proofs.Linear.Assembly
import BundleAdjustment.Proofs.Solver.Success
import BundleAdjustment.Proofs.Solver.Krylov

/-!
What conjugate gradients report of their residual.

The iteration never computes its residual from its solution: every step subtracts a multiple of the
direction's image from it. On a linear system that is the residual all the same (`Faithful`), in every
state and on every layout that the operators work on, with spans that lie apart or not. Whichever way a
run ends, what it reports is therefore true (`Truthful`), also where the tolerance is negative and the
iteration runs on from a residual that has vanished.
-/
namespace BundleAdjustment
open Matrix

variable {K : Type} [ExactScalar K]

namespace Solver
namespace System

variable {s : System K} {A : Matrix (Fin s.layout.length) (Fin s.layout.length) K} {i : Iterate K} {hp : Vec K}

/-! ### Every state -/

/-- A state whose residual is what its solution leaves of the right-hand side. -/
structure Faithful (s : System K) (A : Matrix (Fin s.layout.length) (Fin s.layout.length) K)
    (i : Iterate K) : Prop extends s.Sized i where
  residual : i.r.coords s.layout.length = s.rhs.coords s.layout.length - A *ᵥ i.x.coords s.layout.length
  metric : i.rz = i.r.coords s.layout.length ⬝ᵥ
    (s.inverseMetric.coords s.layout.length * i.r.coords s.layout.length)
  direction : i.r.coords s.layout.length = 0 → i.p.coords s.layout.length = 0

theorem Linear.faithful_first (hs : s.Linear A) : s.Faithful A s.first := by
  have hp : s.first.p.coords s.layout.length =
      s.inverseMetric.coords s.layout.length * s.rhs.coords s.layout.length :=
    Vec.coords_mul hs.size_inverseMetric
  refine ⟨hs.sized_first, ?_, ?_, fun hr => ?_⟩
  · rw [hs.coords_first, mulVec_zero, sub_zero]
    rfl
  · exact (Vec.dot_eq hs.rhs_size).trans (congrArg _ hp)
  · have hrhs : s.rhs.coords s.layout.length = 0 := hr
    rw [hp, hrhs, mul_zero]

namespace Faithful

/-- Where a direction has positive curvature, a residual remains. -/
theorem rz_pos (hs : s.Linear A) (h : s.Faithful A i) (hcurv : 0 < i.p.dot hp) : 0 < i.rz := by
  have hr : i.r.coords s.layout.length ≠ 0 := by
    intro hr
    rw [Vec.dot_eq h.p_size, h.direction hr, zero_dotProduct] at hcurv
    exact lt_irrefl 0 hcurv
  rw [h.metric]
  exact dotProduct_metric_pos hs.inverseMetric_pos hr

/-- A step takes from the residual what it adds to the solution, through the matrix. -/
theorem moved (hs : s.Linear A) (h : s.Faithful A i) (hsize : hp.size = s.layout.length)
    (hcoords : hp.coords s.layout.length = A *ᵥ i.p.coords s.layout.length) (a : K) :
    s.Faithful A (s.moved i hp a) := by
  refine ⟨h.toSized.moved hs hp a, ?_, h.toSized.rz_moved hs hp a, fun hr => ?_⟩
  · rw [h.toSized.coords_moved_r hsize, h.toSized.coords_moved_x, h.residual, hcoords, mulVec_add,
      mulVec_smul]
    abel
  · -- A residual that has vanished leaves nothing of the old direction either.
    have hrz : (s.moved i hp a).rz = 0 := by rw [h.toSized.rz_moved hs, hr, zero_dotProduct]
    rw [h.toSized.coords_moved_p hs, hr, hrz, mul_zero, zero_div, zero_smul, add_zero]

end Faithful

/-! ### Every run -/

/-- A solution of which everything that is reported holds. -/
structure Truthful (s : System K) (A : Matrix (Fin s.layout.length) (Fin s.layout.length) K)
    (sol : Solution K) : Prop where
  size : sol.step.size = s.layout.length
  residual : ∃ r : Vec K, r.size = s.layout.length ∧ sol.residual = r.norm ∧
    r.coords s.layout.length = s.rhs.coords s.layout.length - A *ᵥ sol.step.coords s.layout.length
  converged_iff : sol.converged = true ↔ sol.residual ≤ s.threshold
  iterations_nonneg : 0 ≤ sol.iterations
  iterations_le : sol.iterations ≤ s.settings.maxSteps

/-- A faithful state may be reported after any count of steps that the settings allow. -/
theorem Faithful.truthful (h : s.Faithful A i) {n : Int} (h0 : 0 ≤ n) (hn : n ≤ s.settings.maxSteps)
    {b : Bool} (hb : b = true ↔ i.length ≤ s.threshold) : s.Truthful A ⟨i.x, n, i.length, b⟩ where
  size := h.x_size
  residual := ⟨i.r, h.r_size, h.length, h.residual⟩
  converged_iff := hb
  iterations_nonneg := h0
  iterations_le := hn

/-- A run from a faithful state above the threshold, with all the steps that are left. -/
theorem Faithful.run_truthful (hs : s.Linear A) (hmax : 0 ≤ s.settings.maxSteps) {fuel n : Nat}
    (h : s.Faithful A i) (hlarge : ¬ i.length ≤ s.threshold)
    (hsteps : (n : Int) + fuel = s.settings.maxSteps + 1) :
    ∃ sol, (∀ notes, ∃ notes', s.run fuel n i notes = (.ok sol, notes')) ∧ s.Truthful A sol := by
  induction fuel generalizing n i with
  | zero =>
    exact ⟨_, fun notes => ⟨notes, rfl⟩, h.truthful hmax le_rfl (iff_of_false Bool.false_ne_true hlarge)⟩
  | succ fuel ih =>
    have hn : (n : Int) ≤ s.settings.maxSteps := by omega
    obtain ⟨hp, happly, hsize, hcoords⟩ := hs.apply_eq i.p h.p_size
    by_cases hflat : i.p.dot hp ≤ 0
    · exact ⟨_, fun notes => ⟨_, run_flat happly hflat fuel n notes⟩,
        h.truthful (Int.natCast_nonneg n) hn (iff_of_false Bool.false_ne_true hlarge)⟩
    · have hcurv := not_le.mp hflat
      have hrun := run_moved happly hcurv (h.rz_pos hs hcurv).ne' fuel n
      have h' := h.moved hs hsize hcoords (i.rz / i.p.dot hp)
      by_cases hsmall : (s.moved i hp (i.rz / i.p.dot hp)).length ≤ s.threshold
      · exact ⟨_, fun notes => ⟨_, (hrun notes).trans (if_pos hsmall)⟩,
          h'.truthful (Int.natCast_nonneg n) hn (iff_of_true rfl hsmall)⟩
      · have hleft : ((n + 1 : Nat) : Int) + fuel = s.settings.maxSteps + 1 := by omega
        obtain ⟨sol, hsol, htrue⟩ := ih h' hsmall hleft
        refine ⟨sol, fun notes => ?_, htrue⟩
        rw [hrun, if_neg hsmall]
        exact hsol _

theorem Linear.solve_truthful (hs : s.Linear A) (hmax : 0 ≤ s.settings.maxSteps) :
    ∃ sol, (∀ notes, ∃ notes', s.solve notes = (.ok sol, notes')) ∧ s.Truthful A sol := by
  by_cases hsmall : s.first.length ≤ s.threshold
  · refine ⟨_, fun notes => ⟨notes, ?_⟩, hs.faithful_first.truthful le_rfl hmax (iff_of_true rfl hsmall)⟩
    rw [solve, if_pos hsmall]
    rfl
  · rw [solve, if_neg hsmall]
    exact hs.faithful_first.run_truthful hs hmax hsmall (by omega)

end System

/-! ### The report -/

/-- **Conjugate gradients report their residual truthfully.** Where the gradient at zero, the diagonal and
one product with the Hessian are defined, the iteration ends, at any of its ends, with the length of what
its solution leaves of the damped normal equations. It says that it converged exactly where that length is
within the tolerance, and it counts no more steps than it was given. -/
theorem conjugateGradient_truthful {factors : List (LinearFactor K)} {l : Layout} {settings : Settings K}
    {g d x₀ y₀ : Vec K} (hg : gradientAtZero factors l = .ok g) (hd : hessianDiagonal factors l = .ok d)
    (hx₀ : (x₀.size : Int) = l.size) (hy₀ : multiplyHessian factors (.ofVec x₀) l 1 = .ok y₀)
    (hmax : 0 ≤ settings.maxSteps) :
    ∃ sol hx, (∀ notes, ∃ notes', conjugateGradient factors l settings notes = (.ok sol, notes')) ∧
      multiplyHessian factors (.ofVec sol.step) l 1 = .ok hx ∧
      sol.residual = (-g - (hx + (d.mul sol.step).scale (max settings.damping 0))).norm ∧
      (sol.converged = true ↔ sol.residual ≤ settings.tolerance * (-g).norm) ∧
      0 ≤ sol.iterations ∧ sol.iterations ≤ settings.maxSteps := by
  obtain ⟨hl, hgs, -⟩ := gradientAtZero_eq_ok hg
  have hx₀s : x₀.size = l.length := by
    rw [Layout.length, ← hx₀]
    rfl
  have happ := applies_of_product hg hx₀s hy₀
  have hds : d.size = l.length := size_hessianDiagonal happ hd
  have hrhs : (-g).size = l.length := (Vec.size_neg g).trans hgs
  have hsystem : System.ofFactors factors l settings = .ok ⟨factors, l, settings, -g, d⟩ := by
    rw [System.ofFactors, hg, hd]
    rfl
  have hlinear : System.Linear ⟨factors, l, settings, -g, d⟩ _ := System.linear_operator hl happ hrhs hds
  obtain ⟨sol, hsol, htrue⟩ := hlinear.solve_truthful hmax
  obtain ⟨hx, hhx, hxs, hxc⟩ := multiplyHessian_of_applies hl happ 1 htrue.size
  rw [one_smul] at hxc
  refine ⟨sol, hx, fun notes => ?_, hhx, ?_, htrue.converged_iff, htrue.iterations_nonneg,
    htrue.iterations_le⟩
  · rw [conjugateGradient, Noted.lift_bind hsystem]
    exact hsol notes
  · obtain ⟨r, hrs, hnorm, hr⟩ := htrue.residual
    rw [hnorm, Vec.eq_of_coords hrs ((Vec.size_sub _ _).trans hrhs) ?_]
    rw [hr, System.operator_mulVec, Vec.coords_sub hrhs, Vec.coords_add hxs, hxc,
      Vec.coords_scale _ ((Vec.size_mul _ _).trans hds), Vec.coords_mul hds]

/-- Two spans that share a place, the first of them counted from the end. -/
def sharedPlace : Layout :=
  ⟨⟨[(.number 0, (-3, 2)), (.number 1, (1, 1))], by decide⟩, 3⟩

open BlockMatrix

/-- With a tolerance below zero the iteration runs on until it meets a flat direction. -/
theorem conjugateGradient_truthful_sharedPlace :
    ∃ g d y₀ : Vec ℚ, gradientAtZero [tiltedPair ℚ] sharedPlace = .ok g ∧
      hessianDiagonal [tiltedPair ℚ] sharedPlace = .ok d ∧
      multiplyHessian [tiltedPair ℚ] (.ofVec (Vec.zeros 3)) sharedPlace 1 = .ok y₀ ∧
      ∃ sol hx, (∀ notes, ∃ notes',
          conjugateGradient [tiltedPair ℚ] sharedPlace ⟨4, -1, 1 / 2, true⟩ notes = (.ok sol, notes')) ∧
        multiplyHessian [tiltedPair ℚ] (.ofVec sol.step) sharedPlace 1 = .ok hx ∧
        sol.residual = (-g - (hx + (d.mul sol.step).scale (max (1 / 2) 0))).norm ∧
        (sol.converged = true ↔ sol.residual ≤ -1 * (-g).norm) ∧
        0 ≤ sol.iterations ∧ sol.iterations ≤ 4 := by
  obtain ⟨g, hg⟩ : ∃ g, gradientAtZero [tiltedPair ℚ] sharedPlace = .ok g := ⟨_, rfl⟩
  obtain ⟨d, hd⟩ : ∃ d, hessianDiagonal [tiltedPair ℚ] sharedPlace = .ok d := ⟨_, rfl⟩
  obtain ⟨y₀, hy₀⟩ : ∃ y₀, multiplyHessian [tiltedPair ℚ] (.ofVec (Vec.zeros 3)) sharedPlace 1 =
      .ok y₀ := ⟨_, rfl⟩
  have hmax : 0 ≤ (⟨4, -1, 1 / 2, true⟩ : Settings ℚ).maxSteps := by decide
  exact ⟨g, d, y₀, hg, hd, hy₀, conjugateGradient_truthful hg hd rfl hy₀ hmax⟩

end Solver
end BundleAdjustment
