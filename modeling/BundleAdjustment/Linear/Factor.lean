import BundleAdjustment.Noise
import BundleAdjustment.Table
import BundleAdjustment.Tensor.Product

/-!
Linear factors: one linearized measurement.

A factor is a weighted least-squares term `½ ‖W (∑ A_k x_k - b)‖²` with one matrix `A_k` per
unknown, a right-hand side `b` and an optional noise model whose whitening is `W`. What the
constructors check is kept in the type: keys are distinct, every matrix and the model have the
rows of `b`, and the promise of the factor's kind holds. Whitening folds `W` into the matrices
and `b` (`whiten`), which leaves the keys as they are (`keys_of_whiten`).
-/
namespace BundleAdjustment

/-- What a linear factor promises about its terms. -/
inductive FactorKind where
  /-- Any number of terms of any widths. -/
  | general
  /-- Two terms and two rows. -/
  | pair
  /-- Every term has the stated width. -/
  | uniform (width : Int)
  deriving DecidableEq

namespace FactorKind

/-- The name under which messages speak of a factor. -/
def name : FactorKind → String
  | general => "JacobianFactor"
  | pair => "BinaryLinearFactor"
  | uniform _ => "FixedBlockLinearFactor"

def pairRows : Nat := 2

/-- Whether terms of these widths and this number of rows keep a kind's promise. -/
def Fits : FactorKind → (widths : List Nat) → (rows : Nat) → Prop
  | general, _, _ => True
  | pair, widths, rows => widths.length = 2 ∧ rows = pairRows
  | uniform d, widths, _ => ∀ w ∈ widths, (w : Int) = d

instance (k : FactorKind) (widths : List Nat) (rows : Nat) : Decidable (k.Fits widths rows) := by
  cases k <;> unfold Fits <;> infer_instance

/-- Why a promise is not kept. -/
def misfit : FactorKind → (widths : List Nat) → (rows : Nat) → Fault
  | uniform d, widths, _ => .otherWidths d widths
  | _, _, rows => .pairRows pairRows rows

/-- Whether two factors make the same kind of promise, of whatever width. -/
def same : FactorKind → FactorKind → Bool
  | general, general => true
  | pair, pair => true
  | uniform _, uniform _ => true
  | _, _ => false

end FactorKind

/-- A model, if there is one, has that many rows. -/
def ModelRows {α : Type} (model : Option (Noise α)) (rows : Nat) : Prop :=
  ∀ m, model = some m → m.rows? = some rows

instance {α : Type} : (model : Option (Noise α)) → (rows : Nat) → Decidable (ModelRows model rows)
  | none, _ => isTrue fun _ h => nomatch h
  | some m, rows =>
    if h : m.rows? = some rows then isTrue fun _ hm => by cases hm; exact h
    else isFalse fun hm => h (hm m rfl)

/-- Why a model does not have the rows that it should have: it counts none, or others. -/
def modelMisfit {α : Type} (misfit : (got : Nat) → Fault) (model : Option (Noise α)) : Fault :=
  match model.elim (.ok 0) Noise.dim with
  | .ok got => misfit got
  | .error e => e

def termWidths {α : Type} (terms : Table Key (Mat α)) : List Nat :=
  terms.entries.map fun e => e.2.cols

/-- One linearized measurement. -/
structure LinearFactor (α : Type) where
  kind : FactorKind
  terms : Table Key (Mat α)
  rhs : Vec α
  model : Option (Noise α)
  rows_eq : ∀ e ∈ terms.entries, e.2.rows = rhs.size
  model_rows : ModelRows model rhs.size
  fits : kind.Fits (termWidths terms) rhs.size

namespace LinearFactor
variable {α : Type}

/-- Terms whose matrices have the given number of rows. -/
abbrev TermTable (α : Type) (rows : Nat) : Type :=
  { terms : Table Key (Mat α) // ∀ e ∈ terms.entries, e.2.rows = rows }

/-- One more term: a matrix of the right number of rows for a new key. -/
def addTerm {rows : Nat} (t : TermTable α rows) (key : Key) (block : Tensor α) :
    Except Fault (TermTable α rows) :=
  match block.mat? with
  | some A =>
    if h : A.rows = rows then
      if t.1.contains key then .error (.termDuplicate key)
      else .ok ⟨t.1.insert key A, fun e he => by
        rcases Table.mem_insert he with rfl | he
        · exact h
        · exact t.2 e he⟩
    else .error (.termShape key block.shape rows)
  | none => .error (.termShape key block.shape rows)

/-- Terms from pairs of keys and arrays. -/
def readTerms (rows : Nat) (terms : List (Key × Tensor α)) : Except Fault (TermTable α rows) :=
  terms.foldlM (fun t e => addTerm t e.1 e.2) ⟨Table.empty, by simp [Table.empty]⟩

/-- A factor of matrices that have the rows of the right-hand side. The model and then the
promise of the kind, which may depend on the widths, are checked. -/
def ofTerms (kindOf : List Nat → Except Fault FactorKind) (terms : Table Key (Mat α))
    (rhs : Vec α) (model : Option (Noise α)) (hr : ∀ e ∈ terms.entries, e.2.rows = rhs.size) :
    Except Fault (LinearFactor α) := do
  if hm : ModelRows model rhs.size then
    let kind ← kindOf (termWidths terms)
    if hk : kind.Fits (termWidths terms) rhs.size then
      return ⟨kind, terms, rhs, model, hr, hm, hk⟩
    else throw (kind.misfit (termWidths terms) rhs.size)
  else throw (modelMisfit (.modelRows · rhs.size) model)

/-- What is built of parts that pass the checks has these parts. -/
theorem parts_of_ofTerms {kindOf : List Nat → Except Fault FactorKind} {terms : Table Key (Mat α)}
    {rhs : Vec α} {model : Option (Noise α)} {hr : ∀ e ∈ terms.entries, e.2.rows = rhs.size}
    {f : LinearFactor α} (h : ofTerms kindOf terms rhs model hr = .ok f) :
    f.terms = terms ∧ f.rhs = rhs ∧ f.model = model := by
  unfold ofTerms at h
  split at h
  · cases hk : kindOf (termWidths terms) with
    | error e => simp [hk, bind, Except.bind] at h
    | ok k =>
      simp only [hk, bind, Except.bind] at h
      split at h
      · cases h
        exact ⟨rfl, rfl, rfl⟩
      · cases h
  · cases h

/-- A factor of terms, a right-hand side and a model. The terms are checked first. -/
def build (kindOf : List Nat → Except Fault FactorKind) (terms : List (Key × Tensor α))
    (rhs : Vec α) (model : Option (Noise α)) : Except Fault (LinearFactor α) := do
  let t ← readTerms rhs.size terms
  ofTerms kindOf t.1 rhs model t.2

/-- A factor of any number of terms of any widths. -/
def general (terms : List (Key × Tensor α)) (rhs : Vec α) (model : Option (Noise α)) :
    Except Fault (LinearFactor α) :=
  build (fun _ => .ok .general) terms rhs model

/-- A factor of two terms with two rows. -/
def pair (first second : Key × Tensor α) (rhs : Vec α) (model : Option (Noise α)) :
    Except Fault (LinearFactor α) :=
  build (fun _ => .ok .pair) [first, second] rhs model

/-- The one width that terms have, zero if there are none. -/
def commonWidth (widths : List Nat) : Except Fault FactorKind :=
  match widths.eraseDups.mergeSort with
  | [] => .ok (.uniform 0)
  | [w] => .ok (.uniform w)
  | ws => .error (.mixedWidths ws)

/-- A factor of terms of one width, which is stated or read off the terms. -/
def uniform (terms : List (Key × Tensor α)) (rhs : Vec α) (model : Option (Noise α))
    (width : Option Int) : Except Fault (LinearFactor α) :=
  build (fun widths => width.elim (commonWidth widths) fun d => .ok (.uniform d)) terms rhs model

/-! ### Parts -/

def keys (f : LinearFactor α) : List Key := f.terms.keys

def blocks (f : LinearFactor α) : List (Mat α) := f.terms.entries.map Prod.snd

def widths (f : LinearFactor α) : List Nat := termWidths f.terms

def rows (f : LinearFactor α) : Nat := f.rhs.size

def isEmpty (f : LinearFactor α) : Bool := f.terms.entries.isEmpty

def matrixOf (f : LinearFactor α) (key : Key) : Except Fault (Mat α) :=
  match f.terms.find? key with
  | some A => .ok A
  | none => .error (.termMissing key)

variable [Scalar α]

/-- Whether matrices in pairs have one shape and close entries. -/
def blocksClose (tolerance : α) : List (Mat α) → List (Mat α) → Except Fault Bool
  | A :: as, B :: bs =>
    if A.rows = B.rows ∧ A.cols = B.cols then do
      if ← (Tensor.ofMat A).close tolerance (.ofMat B) then blocksClose tolerance as bs
      else return false
    else return false
  | _, _ => return true

/-- Whether two factors are of one kind, with the same keys and with close models, right-hand
sides and matrices. Models or right-hand sides whose shapes cannot be set against each other have
no answer. -/
def equals (tolerance : α) (f g : LinearFactor α) : Except Fault Bool := do
  if !f.kind.same g.kind || f.keys ≠ g.keys then return false
  if !(← Noise.modelsEqual tolerance f.model g.model) then return false
  if ← (Tensor.ofVec f.rhs).close tolerance (.ofVec g.rhs) then
    blocksClose tolerance f.blocks g.blocks
  else return false

/-! ### Whitening -/

/-- The whitening of an array; no model leaves it as it is. -/
def whitenTensor (model : Option (Noise α)) (t : Tensor α) : Except Fault (Tensor α) :=
  match model with
  | some m => m.whiten t
  | none => .ok t

/-- The whitening of a vector. -/
def whitenVec (model : Option (Noise α)) (v : Vec α) : Except Fault (Vec α) := do
  (← whitenTensor model (.ofVec v)).toVec

/-- The whitening of a matrix, column by column. -/
def whitenMat (model : Option (Noise α)) (A : Mat α) : Except Fault (Mat α) := do
  (← whitenTensor model (.ofMat A)).toMat

/-- A vector whitened twice, as it enters the information form. -/
def whitenTwice (model : Option (Noise α)) (v : Vec α) : Except Fault (Vec α) := do
  whitenVec model (← whitenVec model v)

/-- The terms with whitened matrices, and the whitened right-hand side. -/
def whitenedSystem (f : LinearFactor α) : Except Fault (Table Key (Mat α) × Vec α) := do
  let terms ← f.terms.mapValuesM fun _ A => whitenMat f.model A
  return (terms, ← whitenVec f.model f.rhs)

/-- The model that stays when the weighting has been folded in: hard constraints are still
marked, everything else is gone. -/
def remainingModel : Option (Noise α) → Option (Noise α)
  | some m => if m.isConstrained then some m.unweighted else none
  | none => none

/-- A remaining model has the rows of the model it remains of. -/
theorem modelRows_remainingModel {model : Option (Noise α)} {n : Nat} (h : ModelRows model n) :
    ModelRows (remainingModel model) n := by
  intro m hm
  cases model with
  | none => cases hm
  | some a =>
    simp only [remainingModel] at hm
    split at hm
    · cases hm
      rw [Noise.rows?_unweighted, h a rfl]
    · cases hm

/-- The factor of the same kind with other matrices for its keys, checked like a new one. -/
def withTerms (f : LinearFactor α) (terms : Table Key (Mat α)) (rhs : Vec α)
    (model : Option (Noise α)) : Except Fault (LinearFactor α) :=
  if hr : ∀ e ∈ terms.entries, e.2.rows = rhs.size then
    ofTerms (fun _ => .ok f.kind) terms rhs model hr
  else .error .shapeMismatch

/-- The factor with its weighting folded into matrices and right-hand side. -/
def whiten (f : LinearFactor α) : Except Fault (LinearFactor α) := do
  let (terms, rhs) ← f.whitenedSystem
  f.withTerms terms rhs (remainingModel f.model)

/-- The whitened matrices side by side, and the whitened right-hand side. Without terms there is
no matrix to whiten, and the empty one has the factor's own rows. -/
def jacobian (f : LinearFactor α) : Except Fault (Mat α × Vec α) := do
  let (terms, rhs) ← f.whitenedSystem
  let rows := if f.isEmpty then f.rows else rhs.size
  return (Mat.besideAll rows (terms.entries.map Prod.snd), rhs)

/-! ### The information form -/

/-- The squared length of each whitened column: the diagonal of `Aᵀ W² A`. -/
def hessianDiagonal (f : LinearFactor α) : Except Fault (Table Key (Vec α)) :=
  return (← f.whitenedSystem).1.mapValues fun _ A => A.columnSquares

/-- The diagonal blocks of `Aᵀ W² A`. -/
def hessianBlockDiagonal (f : LinearFactor α) : Except Fault (Table Key (Mat α)) :=
  return (← f.whitenedSystem).1.mapValues fun _ A => A.gram A

/-- The gradient of the error at zero, `-Aᵀ W² b`. -/
def gradientAtZero (f : LinearFactor α) : Except Fault (Table Key (Vec α)) := do
  let e ← whitenTwice f.model f.rhs
  return f.terms.mapValues fun _ A => -A.transposeMulVec e

/-! ### What whitening leaves as it is -/

/-- Whitening leaves the keys and their order as they are. -/
theorem keys_of_whiten {f g : LinearFactor α} (h : f.whiten = .ok g) : g.keys = f.keys := by
  simp only [whiten, whitenedSystem, bind, Except.bind] at h
  cases ht : f.terms.mapValuesM fun _ A => whitenMat f.model A with
  | error e => simp [ht] at h
  | ok terms =>
    cases hb : whitenVec f.model f.rhs with
    | error e => simp [ht, hb] at h
    | ok rhs =>
      simp only [ht, hb, pure, Except.pure, withTerms] at h
      split at h
      · rw [keys, (parts_of_ofTerms h).1, Table.keys_of_mapValuesM ht, keys]
      · cases h

end LinearFactor
end BundleAdjustment
