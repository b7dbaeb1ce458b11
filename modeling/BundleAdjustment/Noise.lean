import BundleAdjustment.Tensor.Broadcast

/-!
Noise models of independent rows.

A model gives the rows of a residual their standard deviations. Whitening divides each row by its
own, so that a whitened residual has unit weight. Four kinds differ in what they promise: a
diagonal and an isotropic model divide, a unit model leaves everything as it is, and a
constrained model leaves the rows of deviation zero (hard constraints) as they are and divides
the others.

The deviations of a constrained model are an array whose first axis counts the rows, so there can
be more or fewer deviations than rows. A single row is then weighed by each of them in turn, which
makes a row of every deviation; on several rows such a model has no meaning. Main statement: every
model but the unit one multiplies by the inverses of its deviations, along the first axis
(`whiten_of_rows`).
-/
namespace BundleAdjustment

/-- A noise model: what it promises about its rows, and their standard deviations. Those who make a
model of the first three kinds give a list of deviations, which is flattened, or one deviation and a
number of rows; either way it has one for each row. A constrained model that is given a weight has no
such constructor and takes the array of its deviations as it comes. -/
inductive Noise (α : Type) where
  /-- Every row has a deviation of its own. -/
  | diagonal (sigmas : Vec α)
  /-- One deviation is shared by every row. -/
  | isotropic (sigmas : Vec α)
  /-- Whitening is the identity. -/
  | unit (sigmas : Vec α)
  /-- Rows of deviation zero are hard constraints, with a penalty weight. -/
  | constrained (sigmas : Tensor α) (weight : α)

namespace Noise
variable {α : Type}

def sigmas : Noise α → Tensor α
  | diagonal s => .ofVec s
  | isotropic s => .ofVec s
  | unit s => .ofVec s
  | constrained s _ => s

/-- How many rows the model has; deviations without axes count no rows. -/
def rows? (m : Noise α) : Option Nat := m.sigmas.shape.head?

def dim (m : Noise α) : Except Fault Nat := m.sigmas.firstAxis

def sameKind : Noise α → Noise α → Bool
  | diagonal _, diagonal _ => true
  | isotropic _, isotropic _ => true
  | unit _, unit _ => true
  | constrained _ _, constrained _ _ => true
  | _, _ => false

variable [Scalar α]

def defaultWeight : α := 1000.0

/-- A model with one deviation shared by a number of rows. -/
def ofDeviation (rows : Int) (sigma : α) : Except Fault (Noise α) :=
  if 0 ≤ rows then .ok (isotropic (Vec.ofFn rows.toNat fun _ => sigma))
  else .error .shapeMismatch

/-- The unit model of a number of rows. -/
def ofRows (rows : Nat) : Noise α := unit (Vec.ofFn rows fun _ => 1)

/-- The unit model of a number of rows, which cannot be negative. -/
def unitModel (rows : Int) : Except Fault (Noise α) :=
  if 0 ≤ rows then .ok (ofRows rows.toNat) else .error .shapeMismatch

/-- One over a deviation of the model; a hard constraint counts as deviation one. -/
def inverse (m : Noise α) (sigma : α) : α :=
  match m with
  | constrained _ _ => if Scalar.same sigma 0 then 1 / 1 else 1 / sigma
  | _ => 1 / sigma

/-- What whitening multiplies by, one number for each deviation. -/
def scales (m : Noise α) : Vec α := m.sigmas.flatten.map m.inverse

/-- A whitened array, whose first axis counts the rows. The unit model takes any array. -/
def whiten (m : Noise α) (t : Tensor α) : Except Fault (Tensor α) :=
  match m with
  | unit _ => .ok t
  | _ => do
    let rows ← t.firstAxis
    let dim ← m.dim
    if rows = dim then t.mul (.ofColumn m.scales (t.rank - 1))
    else throw (.whitenRows dim t.shape)

def precisions (m : Noise α) : Tensor α := m.sigmas.map fun s => m.inverse s * m.inverse s

/-- Whether whitening is known to change nothing. -/
def isUnit : Noise α → Bool
  | unit _ => true
  | constrained _ _ => false
  | diagonal s => s.all fun s => Scalar.same s 1
  | isotropic s => s.all fun s => Scalar.same s 1

/-- Whether some row is a hard constraint. -/
def isConstrained : Noise α → Bool
  | constrained s _ => s.flatten.any fun s => Scalar.same s 0
  | _ => false

/-- The model without its weighting: unit deviations, but hard constraints stay hard. -/
def unweighted : Noise α → Noise α
  | constrained s w => constrained (s.map fun s => if Scalar.same s 0 then 0 else 1) w
  | diagonal s => ofRows s.size
  | isotropic s => ofRows s.size
  | unit s => ofRows s.size

def defaultTolerance : α := 1e-9

/-- Whether two models give hard constraints the same penalty weight, if they have one. -/
def sameWeight : Noise α → Noise α → Bool
  | constrained _ w, constrained _ w' => Scalar.same w' w
  | _, _ => true

/-- Whether another model is there, of the same kind, with equally many rows, close deviations and
the same penalty weight. Deviations whose shapes cannot be set against each other have no answer. -/
def equals (tolerance : α) (a : Noise α) : (other : Option (Noise α)) → Except Fault Bool
  | none => return false
  | some b => do
    if !a.sameKind b then return false
    if (← b.dim) ≠ (← a.dim) then return false
    if ← a.sigmas.close tolerance b.sigmas then return a.sameWeight b
    else return false

/-- Whether a model is there and does more than nothing. -/
def needsWhitening : Option (Noise α) → Bool
  | none => false
  | some m => !m.isUnit

/-- Whether two models are close; no model is close only to no model. -/
def modelsEqual (tolerance : α) : Option (Noise α) → Option (Noise α) → Except Fault Bool
  | none, none => .ok true
  | some a, some b => a.equals tolerance (some b)
  | _, _ => .ok false

/-! ### Rows -/

omit [Scalar α] in
/-- A model that counts its rows has that many. -/
theorem dim_of_rows? {m : Noise α} {n : Nat} (h : m.rows? = some n) : m.dim = .ok n := by
  unfold dim Tensor.firstAxis
  unfold rows? at h
  cases hs : m.sigmas.shape with
  | nil => simp [hs] at h
  | cons a s =>
    simp only [hs, List.head?_cons, Option.some.injEq] at h
    rw [h]

/-- Removing the weighting keeps the rows. -/
@[simp] theorem rows?_unweighted (m : Noise α) : m.unweighted.rows? = m.rows? := by
  cases m <;> simp [unweighted, rows?, ofRows, sigmas, Tensor.map]

theorem size_scales {m : Noise α} {n : Nat} (h : m.sigmas.shape = [n]) : m.scales.size = n := by
  have hs := m.sigmas.size_eq
  rw [h] at hs
  rw [scales, Vec.size_map]
  simpa [Tensor.flatten, Vec.size, volume] using hs

/-! ### Whitening, by the kind of model -/

/-- Every other model multiplies by its scales, along the first axis. -/
theorem whiten_of_rows {m : Noise α} {t : Tensor α} {n : Nat} {s : List Nat}
    (ht : t.shape = n :: s) (hm : m.rows? = some n) (hu : ∀ u, m ≠ unit u) :
    m.whiten t = t.mul (.ofColumn m.scales (t.rank - 1)) := by
  have hd := dim_of_rows? hm
  have hf : t.firstAxis = .ok n := by simp [Tensor.firstAxis, ht]
  unfold whiten
  split
  · exact absurd rfl (hu _)
  · simp [hd, hf, bind, Except.bind]

end Noise
end BundleAdjustment
