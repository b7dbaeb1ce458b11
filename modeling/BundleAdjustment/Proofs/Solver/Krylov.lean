import Mathlib.Algebra.Order.Field.Basic
import Mathlib.LinearAlgebra.FiniteDimensional.Lemmas
import Mathlib.LinearAlgebra.Matrix.DotProduct

/-!
Conjugate directions in exact arithmetic.

A `Normal` system `A x = b` is symmetric, and where `A` has no positive curvature neither `A` nor
`b` is seen at all; that holds of normal equations, however singular. `Explored` is what a state
of the iteration satisfies: the residual is orthogonal to the space of the directions taken so
far, and the next direction is conjugate to it. A step adds its direction to that space
(`Explored.next`), which a residual keeps below the full dimension (`Explored.lt`).
-/
namespace BundleAdjustment.Solver
open Matrix
variable {K : Type} [Field K] {n : Nat}

/-- A state of the iteration after `k` steps, whose directions span `S`. -/
structure Explored (A : Matrix (Fin n) (Fin n) K) (b m : Fin n → K) (S : Submodule K (Fin n → K))
    (x r p : Fin n → K) (rz : K) (k : Nat) : Prop where
  residual : r = b - A *ᵥ x
  length : rz = r ⬝ᵥ (m * r)
  orthogonal : ∀ v ∈ S, v ⬝ᵥ r = 0
  conjugate : ∀ v ∈ S, p ⬝ᵥ A *ᵥ v = 0
  direction : m * r - p ∈ S
  closed : ∀ v ∈ S, m * A *ᵥ v ∈ S ⊔ Submodule.span K {p}
  dimension : Module.finrank K S = k

theorem Explored.first (A : Matrix (Fin n) (Fin n) K) (b m : Fin n → K) :
    Explored A b m ⊥ 0 b (m * b) (b ⬝ᵥ (m * b)) 0 where
  residual := by rw [mulVec_zero, sub_zero]
  length := rfl
  orthogonal := fun v hv => by rw [(Submodule.mem_bot K).mp hv, zero_dotProduct]
  conjugate := fun v hv => by rw [(Submodule.mem_bot K).mp hv, mulVec_zero, dotProduct_zero]
  direction := by
    rw [sub_self]
    exact Submodule.zero_mem _
  closed := fun v hv => by
    rw [(Submodule.mem_bot K).mp hv, mulVec_zero, mul_zero]
    exact Submodule.zero_mem _
  dimension := finrank_bot K (Fin n → K)

variable {A : Matrix (Fin n) (Fin n) K} {b m : Fin n → K} {S : Submodule K (Fin n → K)}
  {x r p : Fin n → K} {rz : K} {k : Nat}

theorem dotProduct_metric (m u v : Fin n → K) : (m * u) ⬝ᵥ v = u ⬝ᵥ (m * v) := by
  refine Finset.sum_congr rfl fun i _ => ?_
  rw [Pi.mul_apply, Pi.mul_apply]
  ring

/-- The direction meets the residual as the preconditioned residual does. -/
theorem Explored.dotProduct_direction (h : Explored A b m S x r p rz k) : p ⬝ᵥ r = rz := by
  have hz := h.orthogonal _ h.direction
  rw [sub_dotProduct, sub_eq_zero, dotProduct_metric, ← h.length] at hz
  exact hz.symm

/-- The preconditioned residual is explored by the next step. -/
theorem Explored.metric_residual_mem (h : Explored A b m S x r p rz k) :
    m * r ∈ S ⊔ Submodule.span K {p} := by
  have hsum := Submodule.add_mem _ (Submodule.mem_sup_left h.direction)
    (Submodule.mem_sup_right (Submodule.mem_span_singleton_self p))
  rwa [sub_add_cancel] at hsum

variable [LinearOrder K]

/-- A system for conjugate directions, with the inverse of a diagonal metric. -/
structure Normal (A : Matrix (Fin n) (Fin n) K) (b m : Fin n → K) : Prop where
  symm : Aᵀ = A
  metric_pos : ∀ i, 0 < m i
  flat : ∀ p, p ⬝ᵥ A *ᵥ p ≤ 0 → A *ᵥ p = 0 ∧ p ⬝ᵥ b = 0

theorem Normal.swap (h : Normal A b m) (u v : Fin n → K) : u ⬝ᵥ A *ᵥ v = v ⬝ᵥ A *ᵥ u := by
  rw [dotProduct_mulVec, dotProduct_comm, ← vecMul_transpose, h.symm]

variable [IsStrictOrderedRing K]

/-- A metric whose entries are positive measures every vector. -/
theorem dotProduct_metric_pos (hm : ∀ i, 0 < m i) (hr : r ≠ 0) : 0 < r ⬝ᵥ (m * r) := by
  obtain ⟨i, hi⟩ := Function.ne_iff.mp hr
  refine Finset.sum_pos' (fun j _ => ?_) ⟨i, Finset.mem_univ i, ?_⟩
  · have : r j * (m * r) j = m j * (r j * r j) := by rw [Pi.mul_apply]; ring
    rw [this]
    exact mul_nonneg (le_of_lt (hm j)) (mul_self_nonneg _)
  · have : r i * (m * r) i = m i * (r i * r i) := by rw [Pi.mul_apply]; ring
    rw [this]
    exact mul_pos (hm i) (mul_self_pos.mpr hi)

theorem Normal.length_pos (h : Normal A b m) (hr : r ≠ 0) : 0 < r ⬝ᵥ (m * r) :=
  dotProduct_metric_pos h.metric_pos hr

namespace Explored

theorem curvature_pos (hn : Normal A b m) (h : Explored A b m S x r p rz k) (hr : r ≠ 0) :
    0 < p ⬝ᵥ A *ᵥ p := by
  by_contra hflat
  obtain ⟨hA, hb⟩ := hn.flat p (not_lt.mp hflat)
  have hzero : p ⬝ᵥ r = 0 := by
    rw [h.residual, dotProduct_sub, hb, hn.swap p x, hA, dotProduct_zero, sub_zero]
  rw [h.dotProduct_direction, h.length] at hzero
  exact absurd hzero (ne_of_gt (hn.length_pos hr))

theorem length_pos (hn : Normal A b m) (h : Explored A b m S x r p rz k) (hr : r ≠ 0) : 0 < rz :=
  h.length ▸ hn.length_pos hr

theorem not_mem (hn : Normal A b m) (h : Explored A b m S x r p rz k) (hr : r ≠ 0) : p ∉ S := by
  intro hp
  have hzero := h.orthogonal p hp
  rw [h.dotProduct_direction] at hzero
  exact absurd hzero (ne_of_gt (h.length_pos hn hr))

/-- A direction that is not yet explored adds a dimension. -/
theorem dimension_next (hn : Normal A b m) (h : Explored A b m S x r p rz k) (hr : r ≠ 0) :
    Module.finrank K ↥(S ⊔ Submodule.span K {p}) = k + 1 := by
  have hp := h.not_mem hn hr
  have hp0 : p ≠ 0 := fun h0 => hp (h0 ▸ Submodule.zero_mem S)
  have hsum := Submodule.finrank_sup_add_finrank_inf_eq S (Submodule.span K {p})
  have hinf : S ⊓ Submodule.span K {p} = ⊥ := by
    refine (Submodule.eq_bot_iff _).mpr fun v hv => ?_
    obtain ⟨hvS, hvp⟩ := Submodule.mem_inf.mp hv
    obtain ⟨c, rfl⟩ := Submodule.mem_span_singleton.mp hvp
    by_contra hne
    have hc : c ≠ 0 := fun hc => hne (by rw [hc, zero_smul])
    exact hp ((Submodule.smul_mem_iff S hc).mp hvS)
  rw [hinf, finrank_bot, finrank_span_singleton hp0, h.dimension, Nat.add_zero] at hsum
  exact hsum

/-- While a residual remains, there is room for one more step. -/
theorem lt (hn : Normal A b m) (h : Explored A b m S x r p rz k) (hr : r ≠ 0) : k < n := by
  have hdim := h.dimension_next hn hr
  have hle := Submodule.finrank_le (S ⊔ Submodule.span K {p})
  rw [hdim, Module.finrank_fin_fun] at hle
  exact hle

section Step
variable {a : K} {r' : Fin n → K} (hn : Normal A b m) (h : Explored A b m S x r p rz k) (hr : r ≠ 0)
  (ha : a = rz / (p ⬝ᵥ A *ᵥ p)) (hr' : r' = r - a • A *ᵥ p)
include hn h hr ha hr'

/-- After a step the residual is orthogonal to its direction too. -/
theorem orthogonal_next : ∀ v ∈ S ⊔ Submodule.span K {p}, v ⬝ᵥ r' = 0 := by
  intro v hv
  obtain ⟨s, hs, w, hw, rfl⟩ := Submodule.mem_sup.mp hv
  obtain ⟨c, rfl⟩ := Submodule.mem_span_singleton.mp hw
  have hcurv : p ⬝ᵥ A *ᵥ p ≠ 0 := ne_of_gt (h.curvature_pos hn hr)
  have hS : s ⬝ᵥ r' = 0 := by
    rw [hr', dotProduct_sub, h.orthogonal s hs, dotProduct_smul, hn.swap s p, h.conjugate s hs,
      smul_zero, sub_zero]
  have hp : p ⬝ᵥ r' = 0 := by
    rw [hr', dotProduct_sub, h.dotProduct_direction, dotProduct_smul, smul_eq_mul, ha,
      div_mul_cancel₀ _ hcurv, sub_self]
  rw [add_dotProduct, smul_dotProduct, hS, hp, smul_zero, add_zero]

/-- The image of the direction, by the two residuals. -/
theorem image_direction : A *ᵥ p = a⁻¹ • (r - r') := by
  have hlen : a ≠ 0 := by
    rw [ha]
    exact div_ne_zero (ne_of_gt (h.length_pos hn hr)) (ne_of_gt (h.curvature_pos hn hr))
  rw [hr', sub_sub_cancel, smul_smul, inv_mul_cancel₀ hlen, one_smul]

/-- The new direction is conjugate to the one taken. -/
theorem conjugate_direction : (m * r' + ((r' ⬝ᵥ (m * r')) / rz) • p) ⬝ᵥ A *ᵥ p = 0 := by
  have hcurv : p ⬝ᵥ A *ᵥ p ≠ 0 := ne_of_gt (h.curvature_pos hn hr)
  have hrz : rz ≠ 0 := ne_of_gt (h.length_pos hn hr)
  have hold : (m * r') ⬝ᵥ r = 0 := by
    rw [dotProduct_metric, dotProduct_comm]
    exact h.orthogonal_next hn hr ha hr' _ h.metric_residual_mem
  have hnew : (m * r') ⬝ᵥ A *ᵥ p = -(a⁻¹ * (r' ⬝ᵥ (m * r'))) := by
    rw [h.image_direction hn hr ha hr', dotProduct_smul, dotProduct_sub, hold, dotProduct_metric, zero_sub,
      smul_eq_mul, mul_neg]
  rw [add_dotProduct, smul_dotProduct, hnew, smul_eq_mul, ha, inv_div]
  field_simp
  ring

/-- Everything explored, through the matrix and the metric, lies in the span of what is explored
and the new direction. -/
theorem closed_next : ∀ v ∈ S ⊔ Submodule.span K {p}, m * A *ᵥ v ∈ (S ⊔ Submodule.span K {p}) ⊔
    Submodule.span K {m * r' + ((r' ⬝ᵥ (m * r')) / rz) • p} := by
  intro v hv
  obtain ⟨s, hs, w, hw, rfl⟩ := Submodule.mem_sup.mp hv
  obtain ⟨c, rfl⟩ := Submodule.mem_span_singleton.mp hw
  have hpS : p ∈ S ⊔ Submodule.span K {p} :=
    Submodule.mem_sup_right (Submodule.mem_span_singleton_self p)
  have hnew : m * r' ∈ (S ⊔ Submodule.span K {p}) ⊔
      Submodule.span K {m * r' + ((r' ⬝ᵥ (m * r')) / rz) • p} := by
    have hdir := Submodule.mem_sup_right (S := S ⊔ Submodule.span K {p})
      (Submodule.mem_span_singleton_self (m * r' + ((r' ⬝ᵥ (m * r')) / rz) • p))
    have hback := Submodule.sub_mem _ hdir
      (Submodule.mem_sup_left (Submodule.smul_mem _ ((r' ⬝ᵥ (m * r')) / rz) hpS))
    rwa [add_sub_cancel_right] at hback
  have himage : m * A *ᵥ p = a⁻¹ • (m * r - m * r') := by
    rw [h.image_direction hn hr ha hr', mul_smul_comm, mul_sub]
  rw [mulVec_add, mulVec_smul, mul_add, mul_smul_comm, himage]
  refine Submodule.add_mem _ (Submodule.mem_sup_left (h.closed s hs)) (Submodule.smul_mem _ _ ?_)
  exact Submodule.smul_mem _ _ (Submodule.sub_mem _ (Submodule.mem_sup_left h.metric_residual_mem) hnew)

/-- **One step keeps what is known of a state**, with its direction among those explored. -/
theorem next : Explored A b m (S ⊔ Submodule.span K {p}) (x + a • p) r'
    (m * r' + ((r' ⬝ᵥ (m * r')) / rz) • p) (r' ⬝ᵥ (m * r')) (k + 1) := by
  have horth := h.orthogonal_next hn hr ha hr'
  refine ⟨?_, rfl, horth, ?_, ?_, h.closed_next hn hr ha hr', h.dimension_next hn hr⟩
  · rw [hr', h.residual, mulVec_add, mulVec_smul]
    abel
  · intro v hv
    obtain ⟨s, hs, w, hw, rfl⟩ := Submodule.mem_sup.mp hv
    obtain ⟨c, rfl⟩ := Submodule.mem_span_singleton.mp hw
    -- Older directions need no sum of corrections: `closed` puts their images where `r'` vanishes.
    have hS : (m * r' + ((r' ⬝ᵥ (m * r')) / rz) • p) ⬝ᵥ A *ᵥ s = 0 := by
      rw [add_dotProduct, smul_dotProduct, h.conjugate s hs, smul_zero, add_zero, dotProduct_metric,
        dotProduct_comm]
      exact horth _ (h.closed s hs)
    rw [mulVec_add, mulVec_smul, dotProduct_add, dotProduct_smul, hS,
      h.conjugate_direction hn hr ha hr', smul_zero, add_zero]
  · rw [sub_add_cancel_left]
    exact Submodule.neg_mem _ (Submodule.smul_mem _ _
      (Submodule.mem_sup_right (Submodule.mem_span_singleton_self p)))

end Step
end Explored
end BundleAdjustment.Solver
