import BundleAdjustment.Linear.Factor
import BundleAdjustment.Linear.Layout

/-!
Linear factors of one width on flat buffers.

A factor whose terms share a width needs no container: it reads and adds at spans of a flat
buffer. With a layout the spans are the layout's, which have to be as long as the width;
without one, the key `k` owns the places from `width * k` on. All spans are checked before
anything is computed.
-/
namespace BundleAdjustment.LinearFactor
variable {α : Type} [Scalar α]

/-- The span of a key before it is compared with a buffer. -/
def flatSpan (width : Int) (layout : Option Layout) (key : Key) : Except Fault (Int × Int) :=
  match layout with
  | some l => do
    let s ← l.span key
    if s.2 = width then return s else throw (.spanWidth key s.2 width)
  | none =>
    match key with
    | .number n => if 0 ≤ n then .ok (width * n, width) else .error (.strideKey key)
    | .name _ => .error (.strideKey key)

/-- The spans of keys in a buffer of the given shape. -/
def flatSpans (width : Int) (layout : Option Layout) (shape : List Nat) (keys : List Key) :
    Except Fault (List (Int × Int)) :=
  keys.mapM fun key => do
    let s ← flatSpan width layout key
    Layout.checkFits shape key s
    return s

def product (A : Mat α) (x : Vec α) : Except Fault (Vec α) :=
  if A.cols = x.size then .ok (A.mulVec x) else .error .shapeMismatch

/-- The buffer `d` with the diagonal of `Aᵀ W² A` added on the factor's spans. -/
def hessianDiagonalFlat (f : LinearFactor α) (width : Int) (layout : Option Layout)
    (d : Tensor α) : Except Fault (Tensor α) := do
  if f.isEmpty then return d
  let spans ← flatSpans width layout d.shape f.keys
  let (terms, _) ← f.whitenedSystem
  return .ofVec (← (spans.zip (terms.entries.map Prod.snd)).foldlM
    (fun d s => Layout.addSpan d s.1 s.2.columnSquares) d.flatten)

/-- The buffer `y` with `scale Aᵀ W² A x` added on the factor's spans. -/
def multiplyHessianAddFlat (f : LinearFactor α) (width : Int) (layout : Option Layout)
    (scale : α) (x y : Tensor α) : Except Fault (Tensor α) := do
  if f.isEmpty then return y
  let xSpans ← flatSpans width layout x.shape f.keys
  let ySpans ← flatSpans width layout y.shape f.keys
  let e ← (xSpans.zip f.blocks).foldlM
    (fun e s => return e + (← product s.2 (Layout.readSpan x.flatten s.1))) (Vec.zeros f.rows)
  let e := (← whitenTwice f.model e).scale scale
  return .ofVec (← (ySpans.zip f.blocks).foldlM
    (fun y s => Layout.addSpan y s.1 (s.2.transposeMulVec e)) y.flatten)

/-- The gradient at zero has no form over flat buffers. Whoever asks for it falls back on
`gradientAtZero` and packs that. -/
def gradientAtZeroFlat (_f : LinearFactor α) (_layout : Option Layout) (_d : Tensor α) :
    Except Fault (Tensor α) :=
  .error .flatGradient

end BundleAdjustment.LinearFactor
