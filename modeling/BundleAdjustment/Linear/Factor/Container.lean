import BundleAdjustment.Linear.Factor

/-!
Linear factors at points given by key.

A container gives each unknown an array. The products below take arrays of any shape that the
matrices accept, so their results are arrays too; for vectors of the right lengths they are the
vectors that one expects.
-/
namespace BundleAdjustment

/-- An array for each key. -/
abbrev Container (α : Type) := Table Key (Tensor α)

namespace LinearFactor
variable {α : Type} [Scalar α]

def lookUp (x : Container α) (key : Key) : Except Fault (Tensor α) :=
  match x.find? key with
  | some t => .ok t
  | none => .error (.vectorMissing key)

def addProducts (x : Container α) (start : Tensor α) (terms : List (Key × Mat α)) :
    Except Fault (Tensor α) :=
  terms.foldlM (fun e t => do e.add (← (Tensor.ofMat t.2).matmul (← lookUp x t.1))) start

/-- The whitened residual `W (A x - b)`. -/
def errorVector (f : LinearFactor α) (x : Container α) : Except Fault (Tensor α) := do
  whitenTensor f.model (← addProducts x (.ofVec (-f.rhs)) f.terms.entries)

/-- Half the squared length of a residual, which has to be a vector. -/
def halfSquare (e : Tensor α) : Except Fault α :=
  match e.vec? with
  | some v => .ok (0.5 * v.dot v)
  | none => .error .shapeMismatch

/-- Half the squared length of the whitened residual. -/
def error (f : LinearFactor α) (x : Container α) : Except Fault α := do
  halfSquare (← f.errorVector x)

/-- Adds `A_kᵀ e` onto the array of every term's key. -/
def addTransposed (e : Tensor α) (y : Container α) (terms : List (Key × Mat α)) :
    Except Fault (Container α) :=
  terms.foldlM (fun y t => do
    let g ← (Tensor.ofMat t.2.transpose).matmul e
    match y.find? t.1 with
    | some old => return y.insert t.1 (← old.add g)
    | none => return y.insert t.1 g) y

/-- The container `y` with `α Aᵀ W² A x` added for each key of the factor. -/
def multiplyHessianAdd (f : LinearFactor α) (scale : α) (x y : Container α) :
    Except Fault (Container α) := do
  if f.isEmpty then return y
  let e ← addProducts x (.ofVec (Vec.zeros f.rows)) f.terms.entries
  let e ← whitenTensor f.model (← whitenTensor f.model e)
  addTransposed (e.scale scale) y f.terms.entries

end LinearFactor
end BundleAdjustment
