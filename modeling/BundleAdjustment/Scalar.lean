/-!
Scalars.

Every computation of this library is generic in the number type: it uses the operations
collected in `Scalar` and none of their laws. The same definitions therefore run on binary64
numbers and are reasoned about over the reals. Comparisons are the only branching a scalar
offers, and each derived predicate below is written so that an undefined number (one that is
not even `≤` itself) answers false.
-/
namespace BundleAdjustment

/-- The arithmetic that estimation needs: a field's operations, an order that can be decided,
and the four functions of plane trigonometry and length. No law is assumed. -/
class Scalar (α : Type) extends Zero α, One α, Add α, Sub α, Mul α, Div α, Neg α,
    OfScientific α, LT α, LE α where
  /-- Whether one scalar is below another. -/
  decidableLT : DecidableLT α
  /-- Whether one scalar is at most another. -/
  decidableLE : DecidableLE α
  /-- The square root. -/
  sqrt : α → α
  /-- The sine of an angle in radians. -/
  sin : α → α
  /-- The cosine of an angle in radians. -/
  cos : α → α
  /-- The angle in `[0, π]` of a given cosine. -/
  arccos : α → α

attribute [reducible, instance] Scalar.decidableLT Scalar.decidableLE

instance : Scalar Float where
  decidableLT := inferInstance
  decidableLE := inferInstance
  sqrt := Float.sqrt
  sin := Float.sin
  cos := Float.cos
  arccos := Float.acos

namespace Scalar
variable {α : Type} [Scalar α]

/-- Equality of values: each is at most the other. Zeros of either sign are the same, and an
undefined number is the same as nothing. -/
def same (a b : α) : Bool := decide (a ≤ b) && decide (b ≤ a)

/-- A number that is neither infinite nor undefined leaves no remainder from itself. -/
def isFinite (a : α) : Bool := same (a - a) 0

def abs (a : α) : α := if a < 0 then -a else a

/-- The nearest value of the interval from `low` to `high`. -/
def clamp (low high a : α) : α := if a < low then low else if high < a then high else a

/-- The relative slack of every comparison, granted on top of the caller's tolerance. -/
def relativeSlack : α := 1e-5

/-- Closeness within an absolute tolerance and the relative slack of the second number.
Infinite numbers are close only to themselves. -/
def close (tolerance a b : α) : Bool :=
  if isFinite a && isFinite b then
    decide (abs (a - b) ≤ tolerance + relativeSlack * abs b)
  else same a b

/-- The sum of `f 0`, …, `f (n - 1)`. -/
def sum : (n : Nat) → (f : Nat → α) → α
  | 0, _ => 0
  | n + 1, f => sum n f + f n

@[simp] theorem sum_zero (f : Nat → α) : sum 0 f = 0 := rfl

theorem sum_succ (n : Nat) (f : Nat → α) : sum (n + 1) f = sum n f + f n := rfl

/-- A sum reads only its own terms. -/
theorem sum_congr {n : Nat} {f g : Nat → α} (h : ∀ i, i < n → f i = g i) : sum n f = sum n g := by
  induction n with
  | zero => rfl
  | succ n ih => rw [sum_succ, sum_succ, ih fun i hi => h i (by omega), h n (by omega)]

end Scalar
end BundleAdjustment
