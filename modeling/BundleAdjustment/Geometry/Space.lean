import BundleAdjustment.Tensor

/-!
Vectors and matrices of three-dimensional space.

Space has a fixed dimension, so its vectors and matrices have named components. A matrix is its
three rows. `hat` turns a vector into the matrix of its cross product, and `vee` reads a vector
back from the part of a matrix that changes sign under transposition.
-/
namespace BundleAdjustment

/-- A vector of space. -/
@[ext] structure Vec3 (α : Type) where
  x : α
  y : α
  z : α

/-- A matrix of space, by rows. -/
@[ext] structure Mat3 (α : Type) where
  row₀ : Vec3 α
  row₁ : Vec3 α
  row₂ : Vec3 α

namespace Vec3
variable {α : Type} [Scalar α]

def add (a b : Vec3 α) : Vec3 α := ⟨a.x + b.x, a.y + b.y, a.z + b.z⟩

def sub (a b : Vec3 α) : Vec3 α := ⟨a.x - b.x, a.y - b.y, a.z - b.z⟩

def neg (a : Vec3 α) : Vec3 α := ⟨-a.x, -a.y, -a.z⟩

instance : Add (Vec3 α) := ⟨add⟩
instance : Sub (Vec3 α) := ⟨sub⟩
instance : Neg (Vec3 α) := ⟨neg⟩

def zero : Vec3 α := ⟨0, 0, 0⟩

def scale (c : α) (a : Vec3 α) : Vec3 α := ⟨c * a.x, c * a.y, c * a.z⟩

def divide (a : Vec3 α) (c : α) : Vec3 α := ⟨a.x / c, a.y / c, a.z / c⟩

def dot (a b : Vec3 α) : α := a.x * b.x + a.y * b.y + a.z * b.z

def cross (a b : Vec3 α) : Vec3 α :=
  ⟨a.y * b.z - a.z * b.y, a.z * b.x - a.x * b.z, a.x * b.y - a.y * b.x⟩

def get (a : Vec3 α) : Nat → α
  | 0 => a.x
  | 1 => a.y
  | _ => a.z

def toList (a : Vec3 α) : List α := [a.x, a.y, a.z]

def toVec (a : Vec3 α) : Vec α := Vec.ofFn 3 a.get

def norm (a : Vec3 α) : α := a.toVec.norm

/-- The first three numbers of a vector, the last one repeated if there are fewer. -/
def ofVec (v : Vec α) : Vec3 α :=
  ⟨v.get (min 0 (v.size - 1)), v.get (min 1 (v.size - 1)), v.get (min 2 (v.size - 1))⟩

end Vec3

namespace Mat3
variable {α : Type} [Scalar α]

def ofFn (f : Nat → Nat → α) : Mat3 α :=
  ⟨⟨f 0 0, f 0 1, f 0 2⟩, ⟨f 1 0, f 1 1, f 1 2⟩, ⟨f 2 0, f 2 1, f 2 2⟩⟩

def get (A : Mat3 α) : Nat → Nat → α
  | 0, j => A.row₀.get j
  | 1, j => A.row₁.get j
  | _, j => A.row₂.get j

def one : Mat3 α := ⟨⟨1, 0, 0⟩, ⟨0, 1, 0⟩, ⟨0, 0, 1⟩⟩

def add (A B : Mat3 α) : Mat3 α := ⟨A.row₀ + B.row₀, A.row₁ + B.row₁, A.row₂ + B.row₂⟩

def sub (A B : Mat3 α) : Mat3 α := ⟨A.row₀ - B.row₀, A.row₁ - B.row₁, A.row₂ - B.row₂⟩

instance : Add (Mat3 α) := ⟨add⟩
instance : Sub (Mat3 α) := ⟨sub⟩

def scale (c : α) (A : Mat3 α) : Mat3 α := ⟨A.row₀.scale c, A.row₁.scale c, A.row₂.scale c⟩

def transpose (A : Mat3 α) : Mat3 α :=
  ⟨⟨A.row₀.x, A.row₁.x, A.row₂.x⟩, ⟨A.row₀.y, A.row₁.y, A.row₂.y⟩,
    ⟨A.row₀.z, A.row₁.z, A.row₂.z⟩⟩

def mulVec (A : Mat3 α) (v : Vec3 α) : Vec3 α := ⟨A.row₀.dot v, A.row₁.dot v, A.row₂.dot v⟩

def mul (A B : Mat3 α) : Mat3 α :=
  let C := B.transpose
  ⟨C.mulVec A.row₀, C.mulVec A.row₁, C.mulVec A.row₂⟩

def trace (A : Mat3 α) : α := A.row₀.x + A.row₁.y + A.row₂.z

/-- The matrix of the cross product with a vector. -/
def hat (v : Vec3 α) : Mat3 α := ⟨⟨0, -v.z, v.y⟩, ⟨v.z, 0, -v.x⟩, ⟨-v.y, v.x, 0⟩⟩

/-- The vector of a matrix's antisymmetric part. -/
def vee (W : Mat3 α) : Vec3 α :=
  (⟨W.row₂.y - W.row₁.z, W.row₀.z - W.row₂.x, W.row₁.x - W.row₀.y⟩ : Vec3 α).divide 2.0

def toMat (A : Mat3 α) : Mat α := Mat.ofFn 3 3 A.get

end Mat3
end BundleAdjustment
