import BundleAdjustment.Linear.Factor.Container
import BundleAdjustment.Linear.Factor.Flat

/-!
The normal equations of many factors, without their matrix.

For a list of factors and a layout these are the diagonal of the Hessian, its product with a
flat vector, and the gradient at zero. Factors of one width work on the flat buffers directly
where they can; every other factor works on containers, whose blocks are gathered and scattered
through the layout. Main statement: for the gradient that is every factor (`addGradient_byKey`).
-/
namespace BundleAdjustment.Solver
variable {α : Type} [Scalar α]

/-- Adds the block of every key of a container onto its span of a buffer. -/
def scatterAll (l : Layout) (buffer : Vec α) (blocks : Container α) : Except Fault (Vec α) :=
  blocks.entries.foldlM (fun buffer e => l.scatterAdd (.ofVec buffer) e.1 e.2) buffer

/-- A container of vectors as one of arrays. -/
def asContainer (t : Table Key (Vec α)) : Container α := t.mapValues fun _ v => .ofVec v

/-- The blocks of some keys of a buffer. -/
def gatherAll (l : Layout) (buffer : Tensor α) (keys : List Key) : Except Fault (Container α) :=
  keys.foldlM (fun t key => return t.insert key (.ofVec (← l.gather buffer key))) Table.empty

/-- One factor's part of the diagonal, added onto a buffer. -/
def addDiagonal (l : Layout) (d : Vec α) (f : LinearFactor α) : Except Fault (Vec α) :=
  match f.kind with
  | .uniform width => return (← f.hessianDiagonalFlat width (some l) (.ofVec d)).flatten
  | _ => do scatterAll l d (asContainer (← f.hessianDiagonal))

def hessianDiagonal (factors : List (LinearFactor α)) (l : Layout) : Except Fault (Vec α) := do
  factors.foldlM (addDiagonal l) (← l.zeros)

/-- One factor's part of the product with `x`, added onto a buffer. -/
def addProduct (l : Layout) (scale : α) (x : Tensor α) (y : Vec α) (f : LinearFactor α) :
    Except Fault (Vec α) :=
  match f.kind with
  | .uniform width => return (← f.multiplyHessianAddFlat width (some l) scale x (.ofVec y)).flatten
  | _ => do
    scatterAll l y (← f.multiplyHessianAdd scale (← gatherAll l x f.keys) Table.empty)

/-- The Hessian times `scale • x`. -/
def multiplyHessian (factors : List (LinearFactor α)) (x : Tensor α) (l : Layout) (scale : α) :
    Except Fault (Vec α) := do
  factors.foldlM (addProduct l scale x) (← l.zeros)

/-- One factor's gradient at zero, added onto a buffer by way of its container. -/
def addGradientByKey (l : Layout) (g : Vec α) (f : LinearFactor α) : Except Fault (Vec α) := do
  scatterAll l g (asContainer (← f.gradientAtZero))

/-- One factor's gradient at zero, added onto a buffer. A factor of one width is asked for the flat
form first; where there is none it goes through its container like the others. -/
def addGradient (l : Layout) (g : Vec α) (f : LinearFactor α) : Except Fault (Vec α) :=
  match f.kind with
  | .uniform _ =>
    match f.gradientAtZeroFlat (some l) (.ofVec g) with
    | .ok g => .ok g.flatten
    | .error .flatGradient => addGradientByKey l g f
    | .error e => .error e
  | _ => addGradientByKey l g f

def gradientAtZero (factors : List (LinearFactor α)) (l : Layout) : Except Fault (Vec α) := do
  factors.foldlM (addGradient l) (← l.zeros)

/-- As the flat form is never there, the gradient of every factor goes through its container. -/
theorem addGradient_byKey (l : Layout) (g : Vec α) (f : LinearFactor α) :
    addGradient l g f = addGradientByKey l g f := by
  unfold addGradient
  cases f.kind <;> rfl

end BundleAdjustment.Solver
