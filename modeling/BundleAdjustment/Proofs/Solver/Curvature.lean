import BundleAdjustment.Proofs.Solver.Operators
import BundleAdjustment.Proofs.Solver.Krylov

/-!
The curvature of the normal equations.

Along a direction `p` a factor has the curvature `|W A p|²`, so that the Hessian of factors never
curves down. Where it is flat, `W A p` vanishes for every factor, and with it the product of the
Hessian and that of the right-hand side. Damping adds a multiple of the diagonal and keeps this
(`normal_damped`).
-/
namespace BundleAdjustment
open Matrix
variable {K : Type} [ExactScalar K]

namespace LinearFactor

/-- What a direction does to the whitened rows of a factor. -/
def slope (f : LinearFactor K) (start : Key → Nat) {n : Nat} (p : Fin n → K) : Fin f.scaling.size → K :=
  f.whitening *ᵥ (f.spread start n *ᵥ p)

variable (f : LinearFactor K) (start : Key → Nat) {n : Nat} (p : Fin n → K)

theorem hessianMatrix_mulVec :
    f.hessianMatrix start n *ᵥ p = (f.spread start n)ᵀ *ᵥ (f.whiteningᵀ *ᵥ f.slope start p) := by
  rw [hessianMatrix, slope, mulVec_mulVec, mulVec_mulVec, mulVec_mulVec]
  simp only [Matrix.mul_assoc]

theorem dotProduct_transposes (e : Fin f.scaling.size → K) :
    p ⬝ᵥ ((f.spread start n)ᵀ *ᵥ (f.whiteningᵀ *ᵥ e)) = f.slope start p ⬝ᵥ e := by
  rw [dotProduct_mulVec, vecMul_transpose, dotProduct_mulVec, vecMul_transpose, slope]

theorem curvature_eq : p ⬝ᵥ f.hessianMatrix start n *ᵥ p = f.slope start p ⬝ᵥ f.slope start p := by
  rw [hessianMatrix_mulVec, dotProduct_transposes]

theorem dotProduct_normalRhs :
    p ⬝ᵥ f.normalRhs start n = f.slope start p ⬝ᵥ (f.whitening *ᵥ f.rhs.coords f.rows) := by
  rw [normalRhs, ← mulVec_mulVec, dotProduct_transposes]

theorem hessianMatrix_symm : (f.hessianMatrix start n)ᵀ = f.hessianMatrix start n := by
  rw [hessianMatrix, transpose_mul, transpose_mul, transpose_mul, transpose_transpose, transpose_transpose]
  simp only [Matrix.mul_assoc]

end LinearFactor

namespace Solver
open LinearFactor

theorem hessianSum_cons (l : Layout) (f : LinearFactor K) (rest : List (LinearFactor K)) :
    hessianSum l (f :: rest) = f.hessianMatrix l.start l.length + hessianSum l rest := by
  rw [hessianSum, List.map_cons, List.sum_cons]
  rfl

theorem rhsSum_cons (l : Layout) (f : LinearFactor K) (rest : List (LinearFactor K)) :
    rhsSum l (f :: rest) = f.normalRhs l.start l.length + rhsSum l rest := by
  rw [rhsSum, List.map_cons, List.sum_cons]
  rfl

theorem hessianSum_symm (l : Layout) (factors : List (LinearFactor K)) :
    (hessianSum l factors)ᵀ = hessianSum l factors := by
  induction factors with
  | nil => exact transpose_zero
  | cons f rest ih => rw [hessianSum_cons, transpose_add, hessianMatrix_symm, ih]

/-- The curvature of a sum is that of its parts, each a squared length. -/
theorem curvature_hessianSum (l : Layout) (factors : List (LinearFactor K)) (p : Fin l.length → K) :
    p ⬝ᵥ hessianSum l factors *ᵥ p = (factors.map fun f => f.slope l.start p ⬝ᵥ f.slope l.start p).sum := by
  induction factors with
  | nil =>
    show p ⬝ᵥ (0 : Matrix (Fin l.length) (Fin l.length) K) *ᵥ p = 0
    rw [zero_mulVec, dotProduct_zero]
  | cons f rest ih => rw [hessianSum_cons, add_mulVec, dotProduct_add, curvature_eq, ih, List.map_cons, List.sum_cons]

theorem squares_nonneg (l : Layout) (factors : List (LinearFactor K)) (p : Fin l.length → K) :
    ∀ a ∈ factors.map fun f => f.slope l.start p ⬝ᵥ f.slope l.start p, 0 ≤ a := by
  intro a ha
  obtain ⟨f, -, rfl⟩ := List.mem_map.mp ha
  exact Finset.sum_nonneg fun i _ => mul_self_nonneg _

theorem curvature_nonneg (l : Layout) (factors : List (LinearFactor K)) (p : Fin l.length → K) :
    0 ≤ p ⬝ᵥ hessianSum l factors *ᵥ p := by
  rw [curvature_hessianSum]
  exact List.sum_nonneg (squares_nonneg l factors p)

/-- A direction that no factor sees is flat, and orthogonal to the right-hand side. -/
theorem hessianSum_of_slopes (l : Layout) {factors : List (LinearFactor K)} {p : Fin l.length → K}
    (h : ∀ f ∈ factors, f.slope l.start p = 0) : hessianSum l factors *ᵥ p = 0 ∧ p ⬝ᵥ rhsSum l factors = 0 := by
  induction factors with
  | nil => exact ⟨zero_mulVec p, dotProduct_zero p⟩
  | cons f rest ih =>
    have hzero := h f (List.mem_cons_self ..)
    obtain ⟨hH, hb⟩ := ih fun g hg => h g (List.mem_cons_of_mem f hg)
    refine ⟨?_, ?_⟩
    · rw [hessianSum_cons, add_mulVec, hH, hessianMatrix_mulVec, hzero, mulVec_zero, mulVec_zero, add_zero]
    · rw [rhsSum_cons, dotProduct_add, hb, dotProduct_normalRhs, hzero, zero_dotProduct, add_zero]

/-- A flat direction is not seen by any factor. -/
theorem slopes_of_flat (l : Layout) (factors : List (LinearFactor K)) {p : Fin l.length → K}
    (h : p ⬝ᵥ hessianSum l factors *ᵥ p = 0) : ∀ f ∈ factors, f.slope l.start p = 0 := by
  intro f hf
  rw [curvature_hessianSum] at h
  exact dotProduct_self_eq_zero.mp
    (List.all_zero_of_le_zero_le_of_sum_eq_zero (squares_nonneg l factors p) h (List.mem_map_of_mem hf))

theorem flat_hessianSum (l : Layout) (factors : List (LinearFactor K)) {p : Fin l.length → K}
    (h : p ⬝ᵥ hessianSum l factors *ᵥ p = 0) :
    hessianSum l factors *ᵥ p = 0 ∧ p ⬝ᵥ rhsSum l factors = 0 :=
  hessianSum_of_slopes l (slopes_of_flat l factors h)

theorem diag_nonneg (l : Layout) (factors : List (LinearFactor K)) (i : Fin l.length) :
    0 ≤ (hessianSum l factors).diag i := by
  have h := curvature_nonneg l factors (Pi.single i 1)
  rw [single_one_dotProduct, mulVec_single_one] at h
  exact h

/-- The Hessian with a multiple of its diagonal added. -/
def dampedSum (l : Layout) (factors : List (LinearFactor K)) (c : K) :
    Matrix (Fin l.length) (Fin l.length) K :=
  hessianSum l factors + c • Matrix.diagonal (hessianSum l factors).diag

theorem dampedSum_mulVec (l : Layout) (factors : List (LinearFactor K)) (c : K) (p : Fin l.length → K) :
    dampedSum l factors c *ᵥ p =
      hessianSum l factors *ᵥ p + c • ((hessianSum l factors).diag * p) :=
  mulVec_damped _ _ p c

theorem damping_term_nonneg (l : Layout) (factors : List (LinearFactor K)) {c : K} (hc : 0 ≤ c)
    (p : Fin l.length → K) (i : Fin l.length) : 0 ≤ p i * (c • ((hessianSum l factors).diag * p)) i := by
  have heq : p i * (c • ((hessianSum l factors).diag * p)) i =
      c * (hessianSum l factors).diag i * (p i * p i) := by
    rw [Pi.smul_apply, Pi.mul_apply, smul_eq_mul]
    ring
  rw [heq]
  exact mul_nonneg (mul_nonneg hc (diag_nonneg l factors i)) (mul_self_nonneg _)

theorem damping_nonneg (l : Layout) (factors : List (LinearFactor K)) {c : K} (hc : 0 ≤ c)
    (p : Fin l.length → K) : 0 ≤ p ⬝ᵥ (c • ((hessianSum l factors).diag * p)) :=
  Finset.sum_nonneg fun i _ => damping_term_nonneg l factors hc p i

/-- **Damped normal equations are normal**, for every damping that is not negative. -/
theorem normal_damped {l : Layout} {factors : List (LinearFactor K)} {c : K} (hc : 0 ≤ c)
    {m : Fin l.length → K} (hm : ∀ i, 0 < m i) :
    Normal (dampedSum l factors c) (rhsSum l factors) m where
  symm := by
    rw [dampedSum, transpose_add, transpose_smul, diagonal_transpose, hessianSum_symm]
  metric_pos := hm
  flat := by
    intro p hp
    have hdamp := damping_nonneg l factors hc p
    have hcurv := curvature_nonneg l factors p
    rw [dampedSum_mulVec, dotProduct_add] at hp
    have hflat : p ⬝ᵥ hessianSum l factors *ᵥ p = 0 := by linarith
    have hzero : p ⬝ᵥ (c • ((hessianSum l factors).diag * p)) = 0 := by linarith
    obtain ⟨hH, hb⟩ := flat_hessianSum l factors hflat
    refine ⟨?_, hb⟩
    rw [dampedSum_mulVec, hH, zero_add]
    funext i
    have hi := (Finset.sum_eq_zero_iff_of_nonneg fun i _ => damping_term_nonneg l factors hc p i).mp hzero i
      (Finset.mem_univ i)
    rcases mul_eq_zero.mp hi with hpi | hpi
    · rw [Pi.smul_apply, Pi.mul_apply, hpi, mul_zero, smul_zero, Pi.zero_apply]
    · exact hpi

end Solver
end BundleAdjustment
