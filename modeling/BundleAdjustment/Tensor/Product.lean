import BundleAdjustment.Tensor.Broadcast

/-!
Matrix products of arrays.

The last two axes of an array are rows and columns, all earlier ones are batches that go
together as in entrywise operations. A vector on the left is a row, on the right a column, and
the axis that it lends is dropped again. Main statements: on matrices and vectors of fitting
lengths these are the products of matrices and vectors (`matmul_ofMat_ofVec`, `gram_ofMat`,
`gram_ofVec`), and the six blocks of a pair are six such products (`pairBlocks_ofMat`).
-/
namespace BundleAdjustment.Tensor
variable {α : Type} [Scalar α]

/-- A shape as batches, rows and columns; a vector is a row. -/
def asLeft (s : List Nat) : Option (List Nat × Nat × Nat) :=
  match s.reverse with
  | [] => none
  | [n] => some ([], 1, n)
  | c :: r :: batch => some (batch.reverse, r, c)

/-- A shape as batches, rows and columns; a vector is a column. -/
def asRight (s : List Nat) : Option (List Nat × Nat × Nat) :=
  match s.reverse with
  | [] => none
  | [n] => some ([], n, 1)
  | c :: r :: batch => some (batch.reverse, r, c)

def matmul (a b : Tensor α) : Except Fault (Tensor α) :=
  match asLeft a.shape, asRight b.shape with
  | some (s, m, k), some (r, k', n) =>
    match align s r with
    | some batch =>
      if k = k' then
        let rows := if a.rank = 1 then [] else [m]
        let cols := if b.rank = 1 then [] else [n]
        .ok (ofFn (batch ++ rows ++ cols) fun p =>
          let place := p.take batch.length
          let row := (p.drop batch.length).take rows.length
          let col := p.drop (batch.length + rows.length)
          Scalar.sum k fun l =>
            a.get (restrict s place ++ row ++ [l]) * b.get (restrict r place ++ [l] ++ col))
      else .error .shapeMismatch
    | none => .error .shapeMismatch
  | _, _ => .error .shapeMismatch

/-- Two arrays of columns: the transpose of the first times the second. -/
def gram (a b : Tensor α) : Except Fault (Tensor α) := a.transpose.matmul b

/-- The sums of squares over the first axis. -/
def columnSquares (t : Tensor α) : Except Fault (Tensor α) :=
  match t.shape with
  | n :: s => .ok (ofFn s fun p => Scalar.sum n fun k => t.get (k :: p) * t.get (k :: p))
  | [] => .error .shapeMismatch

/-- The squared length of a vector, as a matrix of one entry. An array whose axes all have
length one counts as a vector. -/
def squareCorner (t : Tensor α) : Except Fault (Tensor α) :=
  if t.rank = 1 ∨ volume t.shape = 1 then
    .ok (ofMat (Mat.ofFn 1 1 fun _ _ => t.flatten.dot t.flatten))
  else .error .shapeMismatch

/-- The six upper blocks of the Gram matrix of `[a₁ a₂ b]`. -/
def pairBlocks (a₁ a₂ b : Tensor α) : Except Fault (List (Tensor α)) := do
  let h₁₁ ← a₁.gram a₁
  let h₁₂ ← a₁.gram a₂
  let g₁ ← (← a₁.gram b).insertAxis
  let h₂₂ ← a₂.gram a₂
  let g₂ ← (← a₂.gram b).insertAxis
  let c ← b.squareCorner
  return [h₁₁, h₁₂, g₁, h₂₂, g₂, c]

/-- A matrix times a vector of fitting length. -/
theorem matmul_ofMat_ofVec {A : Mat α} {x : Vec α} (h : A.cols = x.size) :
    (ofMat A).matmul (ofVec x) = .ok (ofVec (A.mulVec x)) := by
  simp [matmul, asLeft, asRight, align, alignReversed, h, rank, ofFn_singleton, Mat.mulVec,
    restrict]

/-- A matrix times a vector of another length has no meaning. -/
theorem matmul_ofMat_ofVec_of_ne {A : Mat α} {x : Vec α} (h : A.cols ≠ x.size) :
    (ofMat A).matmul (ofVec x) = .error .shapeMismatch := by
  simp [matmul, asLeft, asRight, align, alignReversed, h]

/-! ### Matrices with equally many rows -/

theorem transpose_ofMat (A : Mat α) : (ofMat A).transpose = ofMat A.transpose := by
  have hshape : (ofMat A).shape.reverse = [A.cols, A.rows] := rfl
  rw [transpose, hshape, ofFn_pair]
  refine congrArg ofMat (Mat.ofFn_congr fun i j _ _ => ?_)
  exact get_ofMat A j i

theorem matmul_ofMat_ofMat {A B : Mat α} (h : A.cols = B.rows) :
    (ofMat A).matmul (ofMat B) =
      .ok (ofMat (Mat.ofFn A.rows B.cols fun i j =>
        Scalar.sum A.cols fun k => A.get i k * B.get k j)) := by
  simp [matmul, asLeft, asRight, align, alignReversed, h, rank, ofFn_pair, restrict]

theorem gram_ofMat {A B : Mat α} (h : A.rows = B.rows) :
    (ofMat A).gram (ofMat B) = .ok (ofMat (A.gram B)) := by
  rw [gram, transpose_ofMat, matmul_ofMat_ofMat (A := A.transpose) h]
  refine congrArg (fun M => Except.ok (ofMat M)) (Mat.ofFn_congr fun i j hi _ => ?_)
  exact Scalar.sum_congr fun k hk => by rw [Mat.get_transpose hi hk]

theorem gram_ofVec {A : Mat α} {b : Vec α} (h : A.rows = b.size) :
    (ofMat A).gram (ofVec b) = .ok (ofVec (A.transposeMulVec b)) := by
  rw [gram, transpose_ofMat, matmul_ofMat_ofVec (A := A.transpose) h, Mat.transpose_mulVec]

theorem columnSquares_ofMat (A : Mat α) :
    (ofMat A).columnSquares = .ok (ofVec A.columnSquares) := by
  rw [columnSquares]
  show Except.ok (ofFn [A.cols] _) = _
  rw [ofFn_singleton]
  refine congrArg (fun v => Except.ok (ofVec v)) (Vec.ofFn_congr fun j _ => ?_)
  exact Scalar.sum_congr fun k _ => by rw [get_ofMat]

/-- A vector with a second axis is a column. -/
theorem insertAxis_ofVec (v : Vec α) : (ofVec v).insertAxis = .ok (ofMat (Mat.ofColumn v)) := by
  rw [insertAxis]
  show Except.ok (ofFn [v.size, 1] _) = _
  rw [ofFn_pair]
  exact congrArg (fun A => Except.ok (ofMat A)) (Mat.ofFn_congr fun i _ _ _ => get_ofVec v i)

/-- The upper blocks of the Gram matrix of two matrices and a vector, by their products. -/
theorem pairBlocks_ofMat {A₁ A₂ : Mat α} {b : Vec α} (h₁ : A₁.rows = b.size)
    (h₂ : A₂.rows = b.size) :
    (ofMat A₁).pairBlocks (ofMat A₂) (ofVec b) =
      .ok [ofMat (A₁.gram A₁), ofMat (A₁.gram A₂), ofMat (.ofColumn (A₁.transposeMulVec b)),
        ofMat (A₂.gram A₂), ofMat (.ofColumn (A₂.transposeMulVec b)),
        ofMat (.ofFn 1 1 fun _ _ => b.dot b)] := by
  have hcorner : (ofVec b).squareCorner = .ok (ofMat (Mat.ofFn 1 1 fun _ _ => b.dot b)) :=
    if_pos (.inl rfl)
  rw [pairBlocks, gram_ofMat rfl, gram_ofMat (h₁.trans h₂.symm), gram_ofMat rfl, gram_ofVec h₁,
    gram_ofVec h₂, hcorner]
  simp only [bind, Except.bind, insertAxis_ofVec]
  rfl

end BundleAdjustment.Tensor
