import BundleAdjustment.Journal
import BundleAdjustment.Solver.Operators

/-!
Preconditioned conjugate gradients on the normal equations of linear factors.

The system is `(H + λ D) x = -g`, with the Hessian `H` applied factor by factor, its diagonal
`D`, the damping `λ` where it is positive, and the gradient `g` at zero. The preconditioner is
the damped diagonal. The iteration stops when the residual is small against the right-hand
side, when it meets a direction without positive curvature, or when its steps are used up. It
notes the residual that each step leaves, and warns of a direction that ends it.
-/
namespace BundleAdjustment.Solver

/-- How the iteration is run. -/
structure Settings (α : Type) where
  /-- How many steps it may take. -/
  maxSteps : Int
  /-- It stops at a residual of this size, relative to the right-hand side. -/
  tolerance : α
  /-- The weight of the Hessian's diagonal that is added to it. -/
  damping : α
  /-- Whether the diagonal is used as a preconditioner. -/
  preconditioned : Bool

def Settings.standard {α : Type} [Scalar α] : Settings α := ⟨100, 1e-10, 0, true⟩

/-- Where the iteration ended. -/
structure Solution (α : Type) where
  step : Vec α
  iterations : Int
  residual : α
  converged : Bool

/-- What the iteration works on. -/
structure System (α : Type) where
  factors : List (LinearFactor α)
  layout : Layout
  settings : Settings α
  rhs : Vec α
  diagonal : Vec α

/-- A state of the iteration: the solution so far, its residual with its length, the direction,
and the residual's square in the preconditioner's metric. -/
structure Iterate (α : Type) where
  x : Vec α
  r : Vec α
  length : α
  p : Vec α
  rz : α

namespace System
variable {α : Type} [Scalar α]

/-- The normal equations of factors. -/
def ofFactors (factors : List (LinearFactor α)) (layout : Layout) (settings : Settings α) :
    Except Fault (System α) := do
  let g ← gradientAtZero factors layout
  let d ← hessianDiagonal factors layout
  return ⟨factors, layout, settings, -g, d⟩

/-- The damped Hessian times a vector. -/
def apply (s : System α) (v : Vec α) : Except Fault (Vec α) := do
  let h ← multiplyHessian s.factors (.ofVec v) s.layout 1
  if 0 < s.settings.damping then return h + (s.diagonal.scale s.settings.damping).mul v
  else return h

/-- The inverse of the preconditioner. Entries that are not positive are left alone. -/
def inverseMetric (s : System α) : Vec α :=
  if s.settings.preconditioned then
    s.diagonal.map fun d =>
      let m := d * (1 + s.settings.damping)
      if 0 < m then 1 / m else 1
  else s.rhs.map fun _ => 1

/-- The residual at which the iteration stops. -/
def threshold (s : System α) : α := s.settings.tolerance * s.rhs.norm

def first (s : System α) : Iterate α :=
  let z := s.inverseMetric.mul s.rhs
  ⟨Vec.zeros s.rhs.size, s.rhs, s.rhs.norm, z, s.rhs.dot z⟩

/-- The state after a step of the given length, before a new direction is chosen. -/
def advance (i : Iterate α) (hp : Vec α) (length : α) : Iterate α :=
  let r := i.r - hp.scale length
  { i with x := i.x + i.p.scale length, r := r, length := r.norm }

/-- The state with its next direction. -/
def redirect (s : System α) (i : Iterate α) : Except Fault (Iterate α) :=
  let z := s.inverseMetric.mul i.r
  let rz := i.r.dot z
  if Scalar.same i.rz 0 then .error .divisionByZero
  else .ok { i with p := z + i.p.scale (rz / i.rz), rz := rz }

/-- Up to `fuel` steps from a state, the next of which has the number `n`. -/
def run (s : System α) : (fuel : Nat) → (n : Nat) → Iterate α → Noted α (Solution α)
  | 0, _, i => return ⟨i.x, s.settings.maxSteps, i.length, false⟩
  | fuel + 1, n, i => do
    let hp ← s.apply i.p
    let curvature := i.p.dot hp
    if curvature ≤ 0 then
      Noted.note (.flatCurvature n curvature)
      return ⟨i.x, n, i.length, false⟩
    let i := advance i hp (i.rz / curvature)
    Noted.note (.stepTaken n i.length)
    if i.length ≤ s.threshold then return ⟨i.x, n, i.length, true⟩
    s.run fuel (n + 1) (← s.redirect i)

def solve (s : System α) : Noted α (Solution α) :=
  if s.first.length ≤ s.threshold then return ⟨s.first.x, 0, s.first.length, true⟩
  else s.run s.settings.maxSteps.toNat 1 s.first

end System

/-- Solves the normal equations of factors. -/
def conjugateGradient {α : Type} [Scalar α] (factors : List (LinearFactor α)) (layout : Layout)
    (settings : Settings α) : Noted α (Solution α) := do
  (← System.ofFactors factors layout settings).solve

end BundleAdjustment.Solver
