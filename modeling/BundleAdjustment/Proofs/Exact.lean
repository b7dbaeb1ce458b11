import Mathlib.Algebra.BigOperators.Fin
import Mathlib.Algebra.Order.Field.Basic
import Mathlib.Analysis.SpecialFunctions.Trigonometric.Inverse
import Mathlib.Data.Rat.Sqrt
import BundleAdjustment.Scalar

/-!
Exact arithmetic.

The library runs on any `Scalar` and assumes no law. Its theory is about the scalars of an
ordered field: comparisons decide the field's order, `same` is equality, and a `sum` is a finite
sum. Roots and angles stay uninterpreted functions until a law asks for more (`RootLaws`), so
that everything linear holds of the rationals too, on which it can be evaluated.

An exact scalar has a zero, a one and an order both from its field and from its `Scalar`. They are the
same, and of two instances Lean takes the later one. A module that is about exact scalars therefore
imports this theory before the definitions that it is about, so that each of them writes the same term.
-/
namespace BundleAdjustment

/-- An ordered field, with functions for lengths and angles of which nothing is assumed. -/
class ExactScalar (K : Type) extends Field K, LinearOrder K, IsStrictOrderedRing K where
  sqrt : K → K
  sin : K → K
  cos : K → K
  arccos : K → K

instance ExactScalar.toScalar {K : Type} [ExactScalar K] : Scalar K where
  decidableLT := inferInstance
  decidableLE := inferInstance
  sqrt := ExactScalar.sqrt
  sin := ExactScalar.sin
  cos := ExactScalar.cos
  arccos := ExactScalar.arccos

noncomputable instance : ExactScalar ℝ where
  sqrt := Real.sqrt
  sin := Real.sin
  cos := Real.cos
  arccos := Real.arccos

/-- The rationals have the roots of their squares and no angles. -/
instance : ExactScalar ℚ where
  sqrt := Rat.sqrt
  sin := 0
  cos := 0
  arccos := 0

/-- The root of a number that is not negative. -/
class RootLaws (K : Type) [ExactScalar K] : Prop where
  sqrt_nonneg : ∀ a : K, 0 ≤ a → 0 ≤ Scalar.sqrt a
  sqrt_mul_self : ∀ a : K, 0 ≤ a → Scalar.sqrt a * Scalar.sqrt a = a

instance : RootLaws ℝ where
  sqrt_nonneg := fun _ _ => Real.sqrt_nonneg _
  sqrt_mul_self := fun _ h => Real.mul_self_sqrt h

namespace Scalar
variable {K : Type} [ExactScalar K]

@[simp] theorem same_eq_decide (a b : K) : same a b = decide (a = b) := by
  unfold same
  rw [← Bool.decide_and]
  exact decide_eq_decide.mpr le_antisymm_iff.symm

theorem sum_eq_range (n : Nat) (f : Nat → K) : sum n f = ∑ i ∈ Finset.range n, f i := by
  induction n with
  | zero => rfl
  | succ n ih => rw [sum_succ, ih, Finset.sum_range_succ]

theorem sum_eq_fin (n : Nat) (f : Nat → K) : sum n f = ∑ i : Fin n, f i := by
  rw [sum_eq_range, Finset.sum_range]

theorem two_mul_half (a : K) : (2 : K) * (0.5 * a) = a := by
  -- The literal of a scalar is that of the field.
  have h : (2 : K) * (@OfScientific.ofScientific K NNRatCast.toOfScientific 5 true 1 * a) = a := by
    norm_num
    ring
  exact h

theorem half_mul (a : K) : 0.5 * a = a / 2 := by
  rw [eq_div_iff two_ne_zero, mul_comm, two_mul_half]

theorem sqrt_eq_zero [RootLaws K] {a : K} (h : 0 ≤ a) : Scalar.sqrt a = 0 ↔ a = 0 := by
  have hs := RootLaws.sqrt_mul_self a h
  constructor
  · intro h0
    rw [← hs, h0, mul_zero]
  · intro h0
    rw [h0, mul_self_eq_zero] at hs
    rw [h0, hs]

end Scalar
end BundleAdjustment
