import BundleAdjustment.Proofs.Solver.Curvature
import BundleAdjustment.Proofs.Solver.Iteration
import BundleAdjustment.Proofs.Solver.MatrixFree

/-!
Finite convergence of conjugate gradients.

A `WellPosed` system has the damped normal equations as its matrix and right-hand side. Every
state of the iteration `Tracks` conjugate directions on it: while a residual remains, a step meets
positive curvature, divides by no zero, and tracks one direction more (`Tracks.moved`). There are
as many directions as the buffer has places, so that the iteration ends in a small residual
before they are used up (`conjugateGradient_converges`).
-/
namespace BundleAdjustment
open Matrix

variable {K : Type} [ExactScalar K]

namespace Solver
namespace System

/-- The matrix of a system. Damping that is not positive is left out. -/
def matrix (s : System K) : Matrix (Fin s.layout.length) (Fin s.layout.length) K :=
  dampedSum s.layout s.factors (max s.settings.damping 0)

/-- The normal equations of factors that the operators apply to. -/
structure WellPosed (s : System K) : Prop where
  proper : s.layout.Proper
  applies : ∀ f ∈ s.factors, f.Applies s.layout
  rhs_size : s.rhs.size = s.layout.length
  rhs_coords : s.rhs.coords s.layout.length = rhsSum s.layout s.factors
  diagonal_size : s.diagonal.size = s.layout.length
  diagonal_coords : s.diagonal.coords s.layout.length = (hessianSum s.layout s.factors).diag

theorem ofFactors_eq {factors : List (LinearFactor K)} {l : Layout} (settings : Settings K) (hl : l.Proper)
    (h : ∀ f ∈ factors, f.Applies l) :
    ∃ g d, gradientAtZero factors l = .ok g ∧ hessianDiagonal factors l = .ok d ∧
      ofFactors factors l settings = .ok ⟨factors, l, settings, -g, d⟩ ∧
      WellPosed ⟨factors, l, settings, -g, d⟩ := by
  obtain ⟨g, hg, hgs, hgc⟩ := gradientAtZero_eq hl h
  obtain ⟨d, hd, hds, hdc⟩ := hessianDiagonal_eq hl h
  refine ⟨g, d, hg, hd, ?_, hl, h, (Vec.size_neg g).trans hgs, ?_, hds, hdc⟩
  · rw [ofFactors, hg, hd]
    rfl
  · rw [Vec.coords_neg hgs, hgc, neg_neg]

variable {s : System K}

theorem WellPosed.linear (hs : s.WellPosed) : s.Linear s.matrix := by
  have hmatrix : s.matrix = s.operator := by rw [matrix, operator, dampedSum, hs.diagonal_coords]
  rw [hmatrix]
  exact linear_operator hs.proper.size_nonneg hs.applies hs.rhs_size hs.diagonal_size

theorem normal (hs : s.WellPosed) :
    Normal s.matrix (s.rhs.coords s.layout.length) (s.inverseMetric.coords s.layout.length) := by
  rw [hs.rhs_coords]
  exact normal_damped (le_max_right _ _) hs.linear.inverseMetric_pos

/-! ### One step -/

/-- What a solution is to the system it was found for. -/
structure Solves (s : System K) (sol : Solution K) : Prop where
  converged : sol.converged = true
  iterations_nonneg : 0 ≤ sol.iterations
  iterations_le : sol.iterations ≤ s.layout.size
  size : sol.step.size = s.layout.length
  small : sol.residual ≤ s.threshold
  residual : ∃ r : Vec K, r.size = s.layout.length ∧ sol.residual = r.norm ∧
    r.coords s.layout.length = s.rhs.coords s.layout.length - s.matrix *ᵥ sol.step.coords s.layout.length

/-- Without tolerance, what is found is a solution. -/
theorem Solves.exact [RootLaws K] {sol : Solution K} (h : s.Solves sol) (htol : s.settings.tolerance = 0) :
    s.matrix *ᵥ sol.step.coords s.layout.length = s.rhs.coords s.layout.length := by
  obtain ⟨r, hrsize, hnorm, hr⟩ := h.residual
  have hsmall := h.small
  rw [threshold, htol, zero_mul, hnorm] at hsmall
  have hzero := (Vec.norm_eq_zero hrsize).mp (le_antisymm hsmall (Vec.norm_nonneg _))
  exact (sub_eq_zero.mp (hr.symm.trans hzero)).symm

/-- What is known of a state after `k` steps. -/
structure Tracks (s : System K) (i : Iterate K) (k : Nat) : Prop extends s.Sized i where
  explored : ∃ S, Explored s.matrix (s.rhs.coords s.layout.length)
    (s.inverseMetric.coords s.layout.length) S (i.x.coords s.layout.length)
    (i.r.coords s.layout.length) (i.p.coords s.layout.length) i.rz k

theorem tracks_first (hs : s.WellPosed) : s.Tracks s.first 0 where
  toSized := hs.linear.sized_first
  explored := by
    have h := Explored.first s.matrix (s.rhs.coords s.layout.length)
      (s.inverseMetric.coords s.layout.length)
    rw [← Vec.coords_mul hs.linear.size_inverseMetric, ← Vec.dot_eq hs.rhs_size,
      ← hs.linear.coords_first] at h
    exact ⟨⊥, h⟩

namespace Tracks
variable {i : Iterate K} {k : Nat}

/-- A step with a residual meets positive curvature. -/
theorem apply_direction (hs : s.WellPosed) (h : s.Tracks i k) (hr : i.r.coords s.layout.length ≠ 0) :
    ∃ hp, s.apply i.p = .ok hp ∧ hp.size = s.layout.length ∧
      hp.coords s.layout.length = s.matrix *ᵥ i.p.coords s.layout.length ∧ 0 < i.p.dot hp := by
  obtain ⟨S, he⟩ := h.explored
  obtain ⟨hp, happly, hsize, hcoords⟩ := hs.linear.apply_eq i.p h.p_size
  refine ⟨hp, happly, hsize, hcoords, ?_⟩
  rw [Vec.dot_eq h.p_size, hcoords]
  exact he.curvature_pos (normal hs) hr

theorem rz_pos (hs : s.WellPosed) (h : s.Tracks i k) (hr : i.r.coords s.layout.length ≠ 0) : 0 < i.rz := by
  obtain ⟨S, he⟩ := h.explored
  exact he.length_pos (normal hs) hr

/-- A step with a residual leads to a state with one direction more. -/
theorem moved (hs : s.WellPosed) (h : s.Tracks i k) (hr : i.r.coords s.layout.length ≠ 0) {hp : Vec K}
    (hsize : hp.size = s.layout.length)
    (hcoords : hp.coords s.layout.length = s.matrix *ᵥ i.p.coords s.layout.length) :
    s.Tracks (s.moved i hp (i.rz / i.p.dot hp)) (k + 1) := by
  obtain ⟨S, he⟩ := h.explored
  have hcurv : i.p.dot hp = i.p.coords s.layout.length ⬝ᵥ s.matrix *ᵥ i.p.coords s.layout.length := by
    rw [Vec.dot_eq h.p_size, hcoords]
  have hr' := h.toSized.coords_moved_r hsize (i.rz / i.p.dot hp)
  rw [hcoords] at hr'
  have hnext := he.next (normal hs) hr (congrArg (i.rz / ·) hcurv) hr'
  rw [← h.toSized.rz_moved hs.linear, ← h.toSized.coords_moved_p hs.linear,
    ← h.toSized.coords_moved_x] at hnext
  exact ⟨h.toSized.moved hs.linear hp _, S ⊔ Submodule.span K {i.p.coords s.layout.length}, hnext⟩

/-- A run from a state with a residual goes on from the next one. -/
theorem run_succ (hs : s.WellPosed) (h : s.Tracks i k) (hr : i.r.coords s.layout.length ≠ 0) :
    ∃ i', s.Tracks i' (k + 1) ∧ ∀ fuel notes, s.run (fuel + 1) (k + 1) i notes =
      if i'.length ≤ s.threshold then
        (.ok ⟨i'.x, (k + 1 : Nat), i'.length, true⟩, notes ++ [.stepTaken (k + 1) i'.length])
      else s.run fuel (k + 1 + 1) i' (notes ++ [.stepTaken (k + 1) i'.length]) := by
  obtain ⟨hp, happly, hsize, hcoords, hcurv⟩ := h.apply_direction hs hr
  exact ⟨s.moved i hp (i.rz / i.p.dot hp), h.moved hs hr hsize hcoords,
    fun fuel => run_moved happly hcurv (h.rz_pos hs hr).ne' fuel (k + 1)⟩

/-- A state at the threshold is what the iteration looks for. -/
theorem solves (hs : s.WellPosed) (h : s.Tracks i k) (hsmall : i.length ≤ s.threshold)
    (hk : k ≤ s.layout.length) : s.Solves ⟨i.x, k, i.length, true⟩ where
  converged := rfl
  iterations_nonneg := Int.natCast_nonneg k
  iterations_le := by
    have hsize : (s.layout.length : Int) = s.layout.size := Int.toNat_of_nonneg hs.proper.size_nonneg
    show (k : Int) ≤ s.layout.size
    rw [← hsize]
    exact Int.ofNat_le.mpr hk
  size := h.x_size
  small := hsmall
  residual := by
    obtain ⟨S, he⟩ := h.explored
    exact ⟨i.r, h.r_size, h.length, he.residual⟩

variable [RootLaws K]

/-- A length above the threshold is that of a residual. -/
theorem residual_ne_zero (htol : 0 ≤ s.settings.tolerance) (h : s.Tracks i k)
    (hlarge : ¬ i.length ≤ s.threshold) : i.r.coords s.layout.length ≠ 0 := by
  intro hr
  refine hlarge ?_
  rw [h.length, (Vec.norm_eq_zero h.r_size).mpr hr]
  exact mul_nonneg htol (Vec.norm_nonneg _)

/-- While a length is above the threshold, there are more places than steps. -/
theorem lt (hs : s.WellPosed) (htol : 0 ≤ s.settings.tolerance) (h : s.Tracks i k)
    (hlarge : ¬ i.length ≤ s.threshold) : k < s.layout.length := by
  obtain ⟨S, he⟩ := h.explored
  exact he.lt (normal hs) (h.residual_ne_zero htol hlarge)

end Tracks

/-! ### All steps -/

variable [RootLaws K]

/-- From any tracked state, as many steps as there are places left are enough, and only these are noted. -/
theorem run_eq (hs : s.WellPosed) (htol : 0 ≤ s.settings.tolerance) {fuel k : Nat} {i : Iterate K}
    (h : s.Tracks i k) (hlarge : ¬ i.length ≤ s.threshold) (hfuel : s.layout.length ≤ k + fuel) :
    ∃ sol residuals,
      (∀ notes, s.run fuel (k + 1) i notes = (.ok sol, notes ++ Event.steps (k + 1) residuals)) ∧
      sol.iterations = (k + residuals.length : Nat) ∧ s.Solves sol := by
  induction fuel generalizing k i with
  | zero =>
    -- With every place explored there is no residual left, against `hlarge`.
    have hroom := h.lt hs htol hlarge
    omega
  | succ fuel ih =>
    have hroom := h.lt hs htol hlarge
    obtain ⟨i', h', hrun⟩ := h.run_succ hs (h.residual_ne_zero htol hlarge)
    by_cases hsmall : i'.length ≤ s.threshold
    · refine ⟨⟨i'.x, (k + 1 : Nat), i'.length, true⟩, [i'.length], fun notes => ?_, rfl, ?_⟩
      · rw [hrun, if_pos hsmall]
        rfl
      · exact h'.solves hs hsmall hroom
    · obtain ⟨sol, residuals, hsol, hcount, hsolves⟩ := ih h' hsmall (by omega)
      refine ⟨sol, i'.length :: residuals, fun notes => ?_, ?_, hsolves⟩
      · rw [hrun, if_neg hsmall, hsol, List.append_assoc]
        rfl
      · rw [hcount, List.length_cons, Nat.add_assoc, Nat.add_comm 1]

theorem solve_eq (hs : s.WellPosed) (htol : 0 ≤ s.settings.tolerance)
    (hsteps : s.layout.size ≤ s.settings.maxSteps) :
    ∃ sol residuals, (∀ notes, s.solve notes = (.ok sol, notes ++ Event.steps 1 residuals)) ∧
      sol.iterations = residuals.length ∧ s.Solves sol := by
  have h := tracks_first hs
  by_cases hsmall : s.first.length ≤ s.threshold
  · refine ⟨⟨s.first.x, (0 : Nat), s.first.length, true⟩, [], fun notes => ?_, rfl, ?_⟩
    · rw [solve, if_pos hsmall, Event.steps, List.append_nil]
      rfl
    · exact h.solves hs hsmall (Nat.zero_le _)
  · have hfuel : s.layout.length ≤ 0 + s.settings.maxSteps.toNat := by
      rw [Nat.zero_add]
      exact Int.toNat_le_toNat hsteps
    obtain ⟨sol, residuals, hsol, hcount, hsolves⟩ := run_eq hs htol h hsmall hfuel
    refine ⟨sol, residuals, fun notes => ?_, ?_, hsolves⟩
    · rw [solve, if_neg hsmall]
      exact hsol notes
    · rw [hcount, Nat.zero_add]

end System

section Result
open LinearFactor
variable [RootLaws K]

/-- **Conjugate gradients converge in finitely many steps.** In exact arithmetic, on a proper layout
that has the places of every key, and with one deviation for each row, the iteration converges in at
most as many steps as the layout has places, however singular the Hessian, and notes these steps and
nothing else. What it reports is the length of what is left of the damped normal equations; without
tolerance, nothing is. -/
theorem conjugateGradient_converges {factors : List (LinearFactor K)} {l : Layout} {settings : Settings K}
    (hl : l.Proper)
    (hkeys : ∀ f ∈ factors, ∀ e ∈ f.terms.entries, ∃ o, l.span e.1 = .ok (o, (e.2.cols : Int)))
    (hrows : ∀ f ∈ factors, OnePerRow f.model f.rows)
    (htol : 0 ≤ settings.tolerance) (hsteps : l.size ≤ settings.maxSteps) :
    ∃ sol residuals,
      (∀ notes, conjugateGradient factors l settings notes = (.ok sol, notes ++ Event.steps 1 residuals)) ∧
      sol.iterations = residuals.length ∧
      sol.converged = true ∧ 0 ≤ sol.iterations ∧ sol.iterations ≤ l.size ∧
      ∃ g d hx, gradientAtZero factors l = .ok g ∧ hessianDiagonal factors l = .ok d ∧
        multiplyHessian factors (.ofVec sol.step) l 1 = .ok hx ∧
        sol.residual = (-g - (hx + (d.mul sol.step).scale (max settings.damping 0))).norm ∧
        sol.residual ≤ settings.tolerance * (-g).norm ∧
        (settings.tolerance = 0 → hx + (d.mul sol.step).scale (max settings.damping 0) = -g) := by
  have happ : ∀ f ∈ factors, f.Applies l := by
    intro f hf
    refine ⟨fun e he => ?_, hrows f hf⟩
    obtain ⟨o, ho⟩ := hkeys f hf e he
    exact hl.holds ho
  obtain ⟨g, d, hg, hd, hsystem, hs⟩ := System.ofFactors_eq settings hl happ
  obtain ⟨sol, residuals, hsol, hcount, hsolves⟩ := System.solve_eq hs htol hsteps
  obtain ⟨hx, hhx, hxs, hxc⟩ := multiplyHessian_eq hl happ 1 hsolves.size
  have hds : d.size = l.length := hs.diagonal_size
  have hdc : d.coords l.length = (hessianSum l factors).diag := hs.diagonal_coords
  have hleft : (hx + (d.mul sol.step).scale (max settings.damping 0)).size = l.length :=
    (Vec.size_add _ _).trans hxs
  have hleftc : (hx + (d.mul sol.step).scale (max settings.damping 0)).coords l.length =
      dampedSum l factors (max settings.damping 0) *ᵥ sol.step.coords l.length := by
    rw [Vec.coords_add hxs, hxc, one_smul, Vec.coords_scale _ ((Vec.size_mul _ _).trans hds),
      Vec.coords_mul hds, hdc, ← dampedSum_mulVec]
  refine ⟨sol, residuals, fun notes => ?_, hcount, hsolves.converged, hsolves.iterations_nonneg,
    hsolves.iterations_le, g, d, hx, hg, hd, hhx, ?_, hsolves.small, fun h0 => ?_⟩
  · rw [conjugateGradient, Noted.lift_bind hsystem]
    exact hsol notes
  · obtain ⟨r, hrs, hnorm, hr⟩ := hsolves.residual
    rw [hnorm, Vec.eq_of_coords hrs ((Vec.size_sub _ _).trans hs.rhs_size) ?_]
    rw [Vec.coords_sub hs.rhs_size, hleftc]
    exact hr
  · refine Vec.eq_of_coords hleft hs.rhs_size ?_
    rw [hleftc]
    exact hsolves.exact h0

end Result

open BlockMatrix

theorem conjugateGradient_converges_tiltedPair :
    ∃ l : Layout, Layout.ofOffsets [.whole 0, .whole 2, .whole 3] = .ok l ∧ l.Proper ∧ l.size = 3 ∧
      ∃ (sol : Solution ℝ) (residuals : List ℝ),
        (∀ notes, conjugateGradient [tiltedPair ℝ] l ⟨3, 0, 1 / 2, true⟩ notes =
          (.ok sol, notes ++ Event.steps 1 residuals)) ∧ sol.iterations = residuals.length ∧
        sol.converged = true ∧ 0 ≤ sol.iterations ∧ sol.iterations ≤ l.size ∧
        ∃ g d hx, gradientAtZero [tiltedPair ℝ] l = .ok g ∧ hessianDiagonal [tiltedPair ℝ] l = .ok d ∧
          multiplyHessian [tiltedPair ℝ] (.ofVec sol.step) l 1 = .ok hx ∧
          sol.residual = (-g - (hx + (d.mul sol.step).scale (max (1 / 2) 0))).norm ∧
          sol.residual ≤ 0 * (-g).norm ∧ hx + (d.mul sol.step).scale (max (1 / 2) 0) = -g := by
  obtain ⟨l, hl, hproper, hsize, hkeys⟩ := spans_tiltedPair (K := ℝ)
  have htol : (0 : ℝ) ≤ (⟨3, 0, 1 / 2, true⟩ : Settings ℝ).tolerance := le_rfl
  have hsteps : l.size ≤ (⟨3, 0, 1 / 2, true⟩ : Settings ℝ).maxSteps := le_of_eq hsize
  obtain ⟨sol, residuals, hsol, hcount, hc, h0, hle, g, d, hx, hg, hd, hhx, hres, hsmall, hexact⟩ :=
    conjugateGradient_converges hproper hkeys onePerRow_tiltedPair htol hsteps
  exact ⟨l, hl, hproper, hsize, sol, residuals, hsol, hcount, hc, h0, hle, g, d, hx, hg, hd, hhx, hres,
    hsmall, hexact rfl⟩

/-- A row that is weighed twice stops the iteration before its first step. -/
theorem conjugateGradient_twoDeviations :
    ∃ l : Layout, Layout.ofWidths [.number 0] [.whole 1] = .ok l ∧ l.Proper ∧
      (∀ e ∈ (twoDeviations ℝ).terms.entries, l.span e.1 = .ok (0, (e.2.cols : Int))) ∧
      conjugateGradient [twoDeviations ℝ] l ⟨100, 0, 0, true⟩ [] = (.error (.whitenRows 1 [2]), []) :=
  ⟨oneUnknown, ofWidths_oneUnknown, proper_oneUnknown, spans_twoDeviations, rfl⟩

end Solver
end BundleAdjustment
