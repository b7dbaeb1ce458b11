import BundleAdjustment.Vec

/-!
Matrices whose shape is a run-time value.

The entries are stored by rows. As with vectors, a matrix is its shape and what it reads
(`Mat.ext_get`), and every product is stated by the sum that each of its entries is.
-/
namespace BundleAdjustment

/-- A rectangle of numbers, stored by rows. -/
structure Mat (α : Type) where
  rows : Nat
  cols : Nat
  entries : Array α
  size_eq : entries.size = rows * cols

namespace Mat
variable {α : Type}

def ofFn (r c : Nat) (f : Nat → Nat → α) : Mat α :=
  ⟨r, c, Array.ofFn fun k : Fin (r * c) => f (k / c) (k % c), by simp⟩

@[simp] theorem rows_ofFn (r c : Nat) (f : Nat → Nat → α) : (ofFn r c f).rows = r := rfl

@[simp] theorem cols_ofFn (r c : Nat) (f : Nat → Nat → α) : (ofFn r c f).cols = c := rfl

section Zero
variable [Zero α]

/-- The number at a position; positions outside are not meant to be read. -/
def get (A : Mat α) (i j : Nat) : α := A.entries.getD (i * A.cols + j) 0

theorem get_ofFn {r c : Nat} {f : Nat → Nat → α} {i j : Nat} (hi : i < r) (hj : j < c) :
    (ofFn r c f).get i j = f i j := by
  have hk : i * c + j < r * c :=
    calc i * c + j < i * c + c := by omega
      _ = (i + 1) * c := by rw [Nat.succ_mul]
      _ ≤ r * c := Nat.mul_le_mul_right c hi
  have hd : (i * c + j) / c = i := by
    rw [Nat.mul_comm, Nat.mul_add_div (by omega), Nat.div_eq_of_lt hj, Nat.add_zero]
  have hm : (i * c + j) % c = j := by
    rw [Nat.mul_comm, Nat.mul_add_mod, Nat.mod_eq_of_lt hj]
  simp [get, ofFn, hk, hd, hm]

/-- A matrix is its shape and what it reads. -/
theorem ext_get {A B : Mat α} (hr : A.rows = B.rows) (hc : A.cols = B.cols)
    (h : ∀ i j, i < A.rows → j < A.cols → A.get i j = B.get i j) : A = B := by
  obtain ⟨r, c, a, ha⟩ := A
  obtain ⟨r', c', b, hb⟩ := B
  simp only at hr hc ha hb h
  subst hr hc
  congr 1
  apply Array.ext (by rw [ha, hb])
  intro k hk hk'
  have hpos : 0 < c := by
    rcases Nat.eq_zero_or_pos c with rfl | h0
    · simp at ha; omega
    · exact h0
  have hlt : k / c < r := by
    apply Nat.div_lt_of_lt_mul
    rw [Nat.mul_comm, ← ha]
    exact hk
  have := h (k / c) (k % c) hlt (Nat.mod_lt _ hpos)
  simpa [get, Array.getD, Nat.div_add_mod', hk, hk'] using this

theorem ofFn_congr {r c : Nat} {f g : Nat → Nat → α} (h : ∀ i j, i < r → j < c → f i j = g i j) :
    ofFn r c f = ofFn r c g :=
  ext_get rfl rfl fun i j (hi : i < r) (hj : j < c) => by
    rw [get_ofFn hi hj, get_ofFn hi hj, h i j hi hj]

/-- The matrix of a list of rows of one length. -/
def ofRows (cols : Nat) (l : List (List α)) : Mat α :=
  ofFn l.length cols fun i j => (l.getD i []).getD j 0

def zeros (r c : Nat) : Mat α := ofFn r c fun _ _ => 0

def transpose (A : Mat α) : Mat α := ofFn A.cols A.rows fun i j => A.get j i

def column (A : Mat α) (j : Nat) : Vec α := Vec.ofFn A.rows fun i => A.get i j

def ofColumn (v : Vec α) : Mat α := ofFn v.size 1 fun i _ => v.get i

/-- Two matrices of equally many rows side by side. -/
def beside (A B : Mat α) : Mat α :=
  ofFn A.rows (A.cols + B.cols) fun i j =>
    if j < A.cols then A.get i j else B.get i (j - A.cols)

/-- Matrices of `r` rows side by side. -/
def besideAll (r : Nat) (l : List (Mat α)) : Mat α := l.foldl beside (zeros r 0)

@[simp] theorem rows_transpose (A : Mat α) : A.transpose.rows = A.cols := rfl

@[simp] theorem cols_transpose (A : Mat α) : A.transpose.cols = A.rows := rfl

theorem get_transpose {A : Mat α} {i j : Nat} (hi : i < A.cols) (hj : j < A.rows) :
    A.transpose.get i j = A.get j i :=
  get_ofFn hi hj

end Zero

section Arithmetic
variable [Scalar α]

/-- The entrywise sum, over the shape of the first matrix. -/
def add (A B : Mat α) : Mat α := ofFn A.rows A.cols fun i j => A.get i j + B.get i j

instance : Add (Mat α) := ⟨add⟩

/-- The product with a vector of as many numbers as there are columns. -/
def mulVec (A : Mat α) (x : Vec α) : Vec α :=
  Vec.ofFn A.rows fun i => Scalar.sum A.cols fun k => A.get i k * x.get k

/-- The product of the transpose with a vector of as many numbers as there are rows. -/
def transposeMulVec (A : Mat α) (e : Vec α) : Vec α :=
  Vec.ofFn A.cols fun j => Scalar.sum A.rows fun k => A.get k j * e.get k

/-- The product of the transpose with a matrix of equally many rows. -/
def gram (A B : Mat α) : Mat α :=
  ofFn A.cols B.cols fun i j => Scalar.sum A.rows fun k => A.get k i * B.get k j

def columnSquares (A : Mat α) : Vec α :=
  Vec.ofFn A.cols fun j => Scalar.sum A.rows fun k => A.get k j * A.get k j

def scaleRows (w : Nat → α) (A : Mat α) : Mat α :=
  ofFn A.rows A.cols fun i j => A.get i j * w i

@[simp] theorem rows_gram (A B : Mat α) : (A.gram B).rows = A.cols := rfl

@[simp] theorem cols_gram (A B : Mat α) : (A.gram B).cols = B.cols := rfl

@[simp] theorem rows_add (A B : Mat α) : (A + B).rows = A.rows := rfl

@[simp] theorem cols_add (A B : Mat α) : (A + B).cols = A.cols := rfl

@[simp] theorem size_mulVec (A : Mat α) (x : Vec α) : (A.mulVec x).size = A.rows := by
  simp [mulVec]

@[simp] theorem size_transposeMulVec (A : Mat α) (e : Vec α) :
    (A.transposeMulVec e).size = A.cols := by
  simp [transposeMulVec]

theorem get_mulVec {A : Mat α} {x : Vec α} {i : Nat} (h : i < A.rows) :
    (A.mulVec x).get i = Scalar.sum A.cols fun k => A.get i k * x.get k :=
  Vec.get_ofFn h

theorem get_transposeMulVec {A : Mat α} {e : Vec α} {j : Nat} (h : j < A.cols) :
    (A.transposeMulVec e).get j = Scalar.sum A.rows fun k => A.get k j * e.get k :=
  Vec.get_ofFn h

theorem transpose_mulVec (A : Mat α) (e : Vec α) : A.transpose.mulVec e = A.transposeMulVec e :=
  Vec.ofFn_congr fun j hj => Scalar.sum_congr fun k hk => by rw [get_transpose hj hk]

theorem get_gram {A B : Mat α} {i j : Nat} (hi : i < A.cols) (hj : j < B.cols) :
    (A.gram B).get i j = Scalar.sum A.rows fun k => A.get k i * B.get k j :=
  get_ofFn hi hj

theorem get_add {A B : Mat α} {i j : Nat} (hi : i < A.rows) (hj : j < A.cols) :
    (A + B).get i j = A.get i j + B.get i j :=
  get_ofFn hi hj

end Arithmetic
end Mat
end BundleAdjustment
