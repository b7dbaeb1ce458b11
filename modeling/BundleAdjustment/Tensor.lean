import BundleAdjustment.Fault
import BundleAdjustment.Mat

/-!
Tensors: arrays of any number of axes.

Estimates, measurements and buffers come from outside with whatever shape they have. A tensor
holds such an array; the library's own vectors and matrices are its one-axis and two-axis
cases (`ofVec`, `ofMat`), and reading them back loses nothing (`vec?_ofVec`, `mat?_ofMat`).
Operations on tensors fail with `Fault.shapeMismatch` where the shapes give them no meaning.
-/
namespace BundleAdjustment

/-- How many entries an array of a shape has. -/
def volume : List Nat → Nat
  | [] => 1
  | n :: s => n * volume s

/-- Every position of an array of a shape, the last axis running fastest. -/
def positions : List Nat → List (List Nat)
  | [] => [[]]
  | n :: s => (List.range n).flatMap fun i => (positions s).map (i :: ·)

theorem volume_replicate_one (k : Nat) : volume (List.replicate k 1) = 1 := by
  induction k with
  | zero => rfl
  | succ k ih => simp [List.replicate_succ, volume, ih]

theorem length_positions (s : List Nat) : (positions s).length = volume s := by
  induction s with
  | nil => rfl
  | cons n s ih =>
    simp only [positions, volume, List.length_flatMap, List.length_map, ih]
    induction n with
    | zero => simp
    | succ n ihn => rw [List.range_succ, List.map_append, List.sum_append, ihn]; simp [Nat.succ_mul]

/-- Where the entry of a position is stored. -/
def storedAt : (shape position : List Nat) → Nat
  | _ :: s, i :: p => i * volume s + storedAt s p
  | _, _ => 0

/-- An array of any number of axes, stored with the last axis running fastest. -/
structure Tensor (α : Type) where
  shape : List Nat
  entries : Array α
  size_eq : entries.size = volume shape

namespace Tensor
variable {α : Type}

def rank (t : Tensor α) : Nat := t.shape.length

def ofFn (shape : List Nat) (f : List Nat → α) : Tensor α :=
  ⟨shape, ((positions shape).map f).toArray, by simp [length_positions]⟩

/-- A single number, an array without axes. -/
def ofScalar (x : α) : Tensor α := ⟨[], #[x], rfl⟩

def ofVec (v : Vec α) : Tensor α := ⟨[v.size], v.entries, by simp [Vec.size, volume]⟩

def ofMat (A : Mat α) : Tensor α := ⟨[A.rows, A.cols], A.entries, by simp [A.size_eq, volume]⟩

/-- A vector along the first axis of an array with `k` more axes of length one. -/
def ofColumn (v : Vec α) (k : Nat) : Tensor α :=
  ⟨v.size :: List.replicate k 1, v.entries, by simp [Vec.size, volume, volume_replicate_one]⟩

def firstAxis (t : Tensor α) : Except Fault Nat :=
  match t.shape with
  | n :: _ => .ok n
  | [] => .error .noFirstAxis

/-- The vector that an array of one axis is. -/
def vec? (t : Tensor α) : Option (Vec α) :=
  match t.shape with
  | [_] => some ⟨t.entries⟩
  | _ => none

/-- The matrix that an array of two axes is. -/
def mat? : Tensor α → Option (Mat α)
  | ⟨[r, c], entries, h⟩ => some ⟨r, c, entries, by simpa [volume] using h⟩
  | _ => none

/-- The vector that an array of one axis is; no other array is one. -/
def toVec (t : Tensor α) : Except Fault (Vec α) :=
  match t.vec? with
  | some v => .ok v
  | none => .error .shapeMismatch

/-- The matrix that an array of two axes is; no other array is one. -/
def toMat (t : Tensor α) : Except Fault (Mat α) :=
  match t.mat? with
  | some A => .ok A
  | none => .error .shapeMismatch

@[simp] theorem shape_ofVec (v : Vec α) : (ofVec v).shape = [v.size] := rfl

@[simp] theorem shape_ofMat (A : Mat α) : (ofMat A).shape = [A.rows, A.cols] := rfl

@[simp] theorem vec?_ofVec (v : Vec α) : (ofVec v).vec? = some v := rfl

@[simp] theorem mat?_ofMat (A : Mat α) : (ofMat A).mat? = some A := rfl

@[simp] theorem toVec_ofVec (v : Vec α) : (ofVec v).toVec = .ok v := rfl

@[simp] theorem toMat_ofMat (A : Mat α) : (ofMat A).toMat = .ok A := rfl

/-- The numbers of an array in the order in which they are stored. -/
def flatten (t : Tensor α) : Vec α := ⟨t.entries⟩

@[simp] theorem flatten_ofVec (v : Vec α) : (ofVec v).flatten = v := rfl

/-- The number that an array without axes is. -/
def toScalar [Zero α] (t : Tensor α) : Except Fault α :=
  match t.shape with
  | [] => .ok (t.entries.getD 0 0)
  | _ => .error .shapeMismatch

section Zero
variable [Zero α]

def get (t : Tensor α) (position : List Nat) : α := t.entries.getD (storedAt t.shape position) 0

/-- The entries below a place on the first axis; a place beyond the end is the last one. An
empty axis has no place. -/
def item (t : Tensor α) (i : Nat) : Except Fault (Tensor α) :=
  match t.shape with
  | 0 :: _ => .error .shapeMismatch
  | n :: s => .ok (ofFn s fun p => t.get (min i (n - 1) :: p))
  | [] => .error .shapeMismatch

/-- A range of the first axis, cut at its end. -/
def slice (t : Tensor α) (start stop : Nat) : Except Fault (Tensor α) :=
  match t.shape with
  | n :: s =>
    .ok (ofFn ((min stop n - start) :: s) fun
      | i :: p => t.get ((start + i) :: p)
      | [] => 0)
  | [] => .error .shapeMismatch

/-- The axes in reverse order. -/
def transpose (t : Tensor α) : Tensor α := ofFn t.shape.reverse fun p => t.get p.reverse

/-- A new axis of length one behind the first. -/
def insertAxis (t : Tensor α) : Except Fault (Tensor α) :=
  match t.shape with
  | n :: s =>
    .ok (ofFn (n :: 1 :: s) fun
      | i :: _ :: p => t.get (i :: p)
      | _ => 0)
  | [] => .error .shapeMismatch

/-- Two arrays one after the other along the first axis; the other axes have to agree. -/
def append (a b : Tensor α) : Except Fault (Tensor α) :=
  match a.shape, b.shape with
  | m :: s, n :: r =>
    if s = r then
      .ok (ofFn ((m + n) :: s) fun
        | i :: p => if i < m then a.get (i :: p) else b.get ((i - m) :: p)
        | [] => 0)
    else .error .shapeMismatch
  | _, _ => .error .shapeMismatch

/-- Arrays of one shape as the places of a new first axis. -/
def stack (first : Tensor α) (others : List (Tensor α)) : Except Fault (Tensor α) :=
  if others.all fun t => t.shape = first.shape then
    .ok (ofFn ((others.length + 1) :: first.shape) fun
      | i :: p => ((first :: others).getD i first).get p
      | [] => 0)
  else .error .shapeMismatch

/-- A vector of zeros whose length is computed. A negative length is no length. -/
def zeros (n : Int) : Except Fault (Vec α) :=
  if 0 ≤ n then .ok (Vec.zeros n.toNat) else .error .shapeMismatch

end Zero
end Tensor
end BundleAdjustment
