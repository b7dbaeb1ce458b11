import BundleAdjustment.Tensor

/-!
Entrywise operations on arrays of two shapes.

The shapes are aligned at their last axes. Axes of one length go together, and an axis that is
missing or of length one is repeated along the other's. Main statements: on vectors of one
length this is the entrywise operation on vectors (`zipWith_ofVec`), and a matrix times a column
of as many rows has each row scaled by its own number (`mul_ofMat_ofColumn`).
-/
namespace BundleAdjustment.Tensor
variable {α β : Type}

/-- The common shape of two shapes that are given last axis first. -/
def alignReversed : List Nat → List Nat → Option (List Nat)
  | [], s => some s
  | s, [] => some s
  | m :: s, n :: r => do
    let rest ← alignReversed s r
    if m = n ∨ n = 1 then some (m :: rest) else if m = 1 then some (n :: rest) else none

/-- The common shape of two shapes. -/
def align (s r : List Nat) : Option (List Nat) :=
  (alignReversed s.reverse r.reverse).map List.reverse

/-- The place that a position of a common shape has in an array of a given shape. -/
def restrict (shape position : List Nat) : List Nat :=
  List.zipWith (fun n i => if n = 1 then 0 else i) shape
    (position.drop (position.length - shape.length))

/-- An operation entry by entry over the common shape. -/
def zipWith [Zero α] (f : α → α → β) (a b : Tensor α) : Except Fault (Tensor β) :=
  match align a.shape b.shape with
  | some s => .ok (ofFn s fun p => f (a.get (restrict a.shape p)) (b.get (restrict b.shape p)))
  | none => .error .shapeMismatch

section Scalar
variable [Scalar α]

def add (a b : Tensor α) : Except Fault (Tensor α) := zipWith (· + ·) a b

def sub (a b : Tensor α) : Except Fault (Tensor α) := zipWith (· - ·) a b

def mul (a b : Tensor α) : Except Fault (Tensor α) := zipWith (· * ·) a b

def map (f : α → α) (t : Tensor α) : Tensor α :=
  ⟨t.shape, t.entries.map f, by rw [Array.size_map, t.size_eq]⟩

def scale (c : α) (t : Tensor α) : Tensor α := t.map (c * ·)

/-- Whether corresponding entries are close. -/
def close (tolerance : α) (a b : Tensor α) : Except Fault Bool := do
  let t ← zipWith (Scalar.close tolerance) a b
  return t.entries.all id

end Scalar

theorem storedAt_singleton (n i : Nat) : storedAt [n] [i] = i := by simp [storedAt, volume]

@[simp] theorem get_ofVec [Zero α] (v : Vec α) (i : Nat) : (ofVec v).get [i] = v.get i := by
  simp [get, storedAt_singleton, ofVec, Vec.get]

theorem positions_singleton (n : Nat) : positions [n] = (List.range n).map fun i => [i] := by
  simp [positions, List.map_eq_flatMap]

theorem ofFn_singleton (n : Nat) (f : List Nat → α) :
    ofFn [n] f = ofVec (Vec.ofFn n fun i => f [i]) := by
  have h : ((positions [n]).map f).toArray = (Array.ofFn fun i : Fin n => f [i.1]) := by
    rw [positions_singleton, List.map_map]
    apply Array.ext'
    rw [Array.toList_ofFn]
    apply List.ext_getElem <;> simp
  unfold ofFn ofVec Vec.ofFn
  simp only [h, Vec.size, Array.size_ofFn]

theorem positions_pair (r c : Nat) :
    positions [r, c] = (List.range (r * c)).map fun k => [k / c, k % c] := by
  have hj : ∀ n, (List.range n).flatMap (fun j => [[j]]) = (List.range n).map fun j => [j] := by
    intro n
    simp [List.map_eq_flatMap]
  simp only [positions, List.map_cons, List.map_nil, hj, List.map_map]
  induction r with
  | zero => simp
  | succ r ih =>
    rw [List.range_succ, List.flatMap_append, ih, Nat.succ_mul, List.range_add, List.map_append]
    simp only [List.flatMap_cons, List.flatMap_nil, List.append_nil, List.map_map]
    congr 1
    apply List.map_congr_left
    intro j hmem
    have hjc : j < c := by simpa using hmem
    have hd : (r * c + j) / c = r := by
      rw [Nat.mul_comm, Nat.mul_add_div (by omega), Nat.div_eq_of_lt hjc, Nat.add_zero]
    have hm : (r * c + j) % c = j := by
      rw [Nat.mul_comm, Nat.mul_add_mod, Nat.mod_eq_of_lt hjc]
    simp [hd, hm]

theorem ofFn_pair (r c : Nat) (f : List Nat → α) :
    ofFn [r, c] f = ofMat (Mat.ofFn r c fun i j => f [i, j]) := by
  have h : ((positions [r, c]).map f).toArray =
      Array.ofFn fun k : Fin (r * c) => f [k.1 / c, k.1 % c] := by
    rw [positions_pair, List.map_map]
    apply Array.ext'
    rw [Array.toList_ofFn]
    apply List.ext_getElem <;> simp
  unfold ofFn ofMat Mat.ofFn
  simp only [h]

@[simp] theorem align_self (n : Nat) : align [n] [n] = some [n] := by
  simp [align, alignReversed]

/-- Vectors of one length are combined position by position. -/
theorem zipWith_ofVec [Scalar α] (f : α → α → α) {u v : Vec α} (h : u.size = v.size) :
    zipWith f (ofVec u) (ofVec v) = .ok (ofVec (u.zipWith f v)) := by
  have hr : ∀ i, i < u.size → restrict [v.size] [i] = [if u.size = 1 then 0 else i] := by
    intro i _
    simp [restrict, h]
  simp only [zipWith, shape_ofVec, ← h, align_self, ofFn_singleton, Vec.zipWith]
  congr 2
  apply Vec.ofFn_congr
  intro i hi
  by_cases h1 : u.size = 1
  · have : i = 0 := by omega
    subst this
    simp [restrict, h1]
  · simp [restrict, h1]

@[simp] theorem get_ofMat [Zero α] (A : Mat α) (i j : Nat) : (ofMat A).get [i, j] = A.get i j := by
  simp [get, storedAt, volume, ofMat, Mat.get]

theorem get_ofColumn_one [Zero α] (v : Vec α) (i : Nat) : (ofColumn v 1).get [i, 0] = v.get i := by
  simp [get, storedAt, volume, ofColumn, Vec.get]

/-- A matrix times a column of as many rows has each row scaled by its own number. -/
theorem mul_ofMat_ofColumn [Scalar α] {A : Mat α} {v : Vec α} (h : A.rows = v.size) :
    (ofMat A).mul (ofColumn v 1) = .ok (ofMat (A.scaleRows v.get)) := by
  have ha : align (ofMat A).shape (ofColumn v 1).shape = some [A.rows, A.cols] := by
    simp [align, alignReversed, ofColumn, h]
  simp only [mul, zipWith, ha, ofFn_pair, Mat.scaleRows]
  congr 2
  apply Mat.ofFn_congr
  intro i j hi hj
  have hA : restrict [A.rows, A.cols] [i, j] = [i, j] := by
    have h0 : (if A.rows = 1 then 0 else i) = i := by split <;> omega
    have h1 : (if A.cols = 1 then 0 else j) = j := by split <;> omega
    simp [restrict, h0, h1]
  have hv : restrict [v.size, 1] [i, j] = [i, 0] := by
    have h0 : (if v.size = 1 then 0 else i) = i := by split <;> omega
    simp [restrict, h0]
  have hs : (ofColumn v 1).shape = [v.size, 1] := rfl
  rw [shape_ofMat, hs, hA, hv, get_ofMat, get_ofColumn_one]

end BundleAdjustment.Tensor
