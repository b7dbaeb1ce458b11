import BundleAdjustment.Scalar

/-!
Vectors whose length is a run-time value.

A vector is read at any position; beyond its end it reads zero. Two vectors are equal when
they have one length and read the same below it (`Vec.ext_get`), and each operation comes with
the lemma that says what its result reads.
-/
namespace BundleAdjustment

/-- A column of numbers. -/
structure Vec (α : Type) where
  entries : Array α

namespace Vec
variable {α : Type}

def size (v : Vec α) : Nat := v.entries.size

def ofFn (n : Nat) (f : Nat → α) : Vec α := ⟨Array.ofFn fun i : Fin n => f i⟩

@[simp] theorem size_ofFn (n : Nat) (f : Nat → α) : (ofFn n f).size = n := by
  simp [size, ofFn]

section Zero
variable [Zero α]

/-- The number at a position, zero beyond the end. -/
def get (v : Vec α) (i : Nat) : α := v.entries.getD i 0

theorem get_ofFn {n : Nat} {f : Nat → α} {i : Nat} (h : i < n) : (ofFn n f).get i = f i := by
  simp [get, ofFn, h]

theorem get_of_size_le {v : Vec α} {i : Nat} (h : v.size ≤ i) : v.get i = 0 := by
  simp [get, Array.getD, size] at h ⊢
  omega

/-- A vector is its length and what it reads. -/
theorem ext_get {u v : Vec α} (hs : u.size = v.size) (h : ∀ i, i < u.size → u.get i = v.get i) :
    u = v := by
  cases u with
  | mk a =>
    cases v with
    | mk b =>
      congr 1
      apply Array.ext hs
      intro i hi hj
      have := h i hi
      simpa [get, Array.getD, hi, hj] using this

theorem ofFn_congr {n : Nat} {f g : Nat → α} (h : ∀ i, i < n → f i = g i) : ofFn n f = ofFn n g :=
  ext_get (by simp) fun i hi => by
    rw [size_ofFn] at hi
    rw [get_ofFn hi, get_ofFn hi, h i hi]

/-- The positions from `start` on, up to but without `stop`, cut at the end. -/
def slice (v : Vec α) (start stop : Nat) : Vec α :=
  ofFn (min stop v.size - start) fun i => v.get (start + i)

def append (u v : Vec α) : Vec α :=
  ofFn (u.size + v.size) fun i => if i < u.size then u.get i else v.get (i - u.size)

def concat (l : List (Vec α)) : Vec α := l.foldr append (ofFn 0 fun _ => 0)

def zeros (n : Nat) : Vec α := ofFn n fun _ => 0

end Zero

section Arithmetic
variable [Scalar α]

/-- Entry by entry, over the positions of the first vector. -/
def zipWith (f : α → α → α) (u v : Vec α) : Vec α := ofFn u.size fun i => f (u.get i) (v.get i)

def map (f : α → α) (v : Vec α) : Vec α := ofFn v.size fun i => f (v.get i)

def add (u v : Vec α) : Vec α := u.zipWith (· + ·) v

def sub (u v : Vec α) : Vec α := u.zipWith (· - ·) v

def mul (u v : Vec α) : Vec α := u.zipWith (· * ·) v

def neg (v : Vec α) : Vec α := v.map (- ·)

def scale (c : α) (v : Vec α) : Vec α := v.map (c * ·)

instance : Add (Vec α) := ⟨add⟩
instance : Sub (Vec α) := ⟨sub⟩
instance : Neg (Vec α) := ⟨neg⟩

/-- The inner product, over the positions of the first vector. -/
def dot (u v : Vec α) : α := Scalar.sum u.size fun i => u.get i * v.get i

def norm (v : Vec α) : α := Scalar.sqrt (v.dot v)

def all (v : Vec α) (p : α → Bool) : Bool := (List.range v.size).all fun i => p (v.get i)

def any (v : Vec α) (p : α → Bool) : Bool := (List.range v.size).any fun i => p (v.get i)

@[simp] theorem size_zipWith (f : α → α → α) (u v : Vec α) : (u.zipWith f v).size = u.size := by
  simp [zipWith]

@[simp] theorem size_map (f : α → α) (v : Vec α) : (v.map f).size = v.size := by simp [map]

@[simp] theorem size_add (u v : Vec α) : (u + v).size = u.size := size_zipWith _ u v

@[simp] theorem size_sub (u v : Vec α) : (u - v).size = u.size := size_zipWith _ u v

@[simp] theorem size_neg (v : Vec α) : (-v).size = v.size := size_map _ v

@[simp] theorem size_scale (c : α) (v : Vec α) : (v.scale c).size = v.size := size_map _ v

theorem get_zipWith {f : α → α → α} {u v : Vec α} {i : Nat} (h : i < u.size) :
    (u.zipWith f v).get i = f (u.get i) (v.get i) :=
  get_ofFn h

theorem get_map {f : α → α} {v : Vec α} {i : Nat} (h : i < v.size) :
    (v.map f).get i = f (v.get i) :=
  get_ofFn h

theorem get_add {u v : Vec α} {i : Nat} (h : i < u.size) : (u + v).get i = u.get i + v.get i :=
  get_zipWith h

theorem get_sub {u v : Vec α} {i : Nat} (h : i < u.size) : (u - v).get i = u.get i - v.get i :=
  get_zipWith h

theorem get_neg {v : Vec α} {i : Nat} (h : i < v.size) : (-v).get i = -v.get i := get_map h

theorem get_scale {c : α} {v : Vec α} {i : Nat} (h : i < v.size) :
    (v.scale c).get i = c * v.get i :=
  get_map h

end Arithmetic
end Vec
end BundleAdjustment
