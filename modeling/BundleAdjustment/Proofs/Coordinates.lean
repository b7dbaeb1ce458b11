import BundleAdjustment.Proofs.Exact
import BundleAdjustment.Mat
import Mathlib.LinearAlgebra.Matrix.DotProduct

/-!
Vectors and matrices as functions on finite index types.

A run-time vector of `n` numbers is the function `coords n` on `Fin n`, a run-time matrix the
`Matrix` of its entries. Each operation is the algebraic one in these coordinates, and two
vectors of one size with the same coordinates are equal (`Vec.eq_of_coords`).
-/
namespace BundleAdjustment
open Matrix

namespace Vec
variable {K : Type} [ExactScalar K] {n : Nat} {u v : Vec K}

def coords (n : Nat) (v : Vec K) : Fin n → K := fun i => v.get i

theorem coords_apply (v : Vec K) (i : Fin n) : v.coords n i = v.get i := rfl

theorem coords_ofFn (f : Nat → K) : (ofFn n f).coords n = fun i : Fin n => f i :=
  funext fun i => get_ofFn i.isLt

theorem eq_of_coords (hu : u.size = n) (hv : v.size = n) (h : u.coords n = v.coords n) : u = v := by
  refine ext_get (hu.trans hv.symm) ?_
  intro i hi
  exact congrFun h ⟨i, hu ▸ hi⟩

theorem coords_zeros : (zeros n : Vec K).coords n = 0 := coords_ofFn _

theorem size_zeros (n : Nat) : (zeros n : Vec K).size = n := size_ofFn n _

/-- A vector of zeros reads zero, beyond its end too. -/
theorem get_zeros (n i : Nat) : (zeros n : Vec K).get i = 0 := by
  rcases Nat.lt_or_ge i n with h | h
  · exact get_ofFn h
  · exact get_of_size_le (by rwa [size_zeros])

theorem coords_add (h : u.size = n) : (u + v).coords n = u.coords n + v.coords n :=
  funext fun i => get_add (h ▸ i.isLt)

theorem coords_sub (h : u.size = n) : (u - v).coords n = u.coords n - v.coords n :=
  funext fun i => get_sub (h ▸ i.isLt)

theorem coords_neg (h : v.size = n) : (-v).coords n = -v.coords n :=
  funext fun i => get_neg (h ▸ i.isLt)

theorem coords_scale (c : K) (h : v.size = n) : (v.scale c).coords n = c • v.coords n :=
  funext fun i => get_scale (h ▸ i.isLt)

theorem scale_one (u : Vec K) : u.scale 1 = u := by
  refine ext_get (size_scale 1 u) fun i hi => ?_
  rw [get_scale (size_scale 1 u ▸ hi), one_mul]

theorem size_mul (u v : Vec K) : (u.mul v).size = u.size := size_zipWith _ u v

theorem coords_mul (h : u.size = n) : (u.mul v).coords n = u.coords n * v.coords n :=
  funext fun i => get_zipWith (h ▸ i.isLt)

theorem dot_eq (h : u.size = n) : u.dot v = u.coords n ⬝ᵥ v.coords n := by
  rw [dot, Scalar.sum_eq_fin, h]
  rfl

theorem dot_add {w : Vec K} (h : v.size = u.size) : u.dot (v + w) = u.dot v + u.dot w := by
  rw [dot_eq rfl, dot_eq rfl, dot_eq rfl, coords_add h, dotProduct_add]

theorem neg_dot (u v : Vec K) : (-u).dot v = -u.dot v := by
  rw [dot_eq (size_neg u), dot_eq rfl, coords_neg rfl, neg_dotProduct]

theorem dot_neg_self (v : Vec K) : (-v).dot (-v) = v.dot v := by
  rw [dot_eq (size_neg v), dot_eq rfl, coords_neg rfl]
  simp

theorem dot_zeros (v : Vec K) (n : Nat) : v.dot (zeros n) = 0 := by
  have hc : (zeros n : Vec K).coords v.size = 0 := funext fun i => get_zeros n i
  rw [dot_eq rfl, hc, dotProduct_zero]

theorem dot_self_nonneg (v : Vec K) : 0 ≤ v.dot v := by
  rw [dot_eq rfl]
  exact Finset.sum_nonneg fun i _ => mul_self_nonneg _

theorem norm_nonneg [RootLaws K] (v : Vec K) : 0 ≤ v.norm := RootLaws.sqrt_nonneg _ v.dot_self_nonneg

theorem norm_eq_zero [RootLaws K] (h : v.size = n) : v.norm = 0 ↔ v.coords n = 0 := by
  rw [norm, Scalar.sqrt_eq_zero v.dot_self_nonneg, dot_eq h, dotProduct_self_eq_zero]

/-! ### Vectors one after the other -/

section Joined
variable {α : Type} [Zero α] {u v : Vec α}

theorem size_append (u v : Vec α) : (u.append v).size = u.size + v.size := size_ofFn _ _

theorem get_append_left {i : Nat} (h : i < u.size) : (u.append v).get i = u.get i := by
  rw [append, get_ofFn (Nat.lt_add_right _ h), if_pos h]

theorem get_append_right (u v : Vec α) (i : Nat) : (u.append v).get (u.size + i) = v.get i := by
  rcases Nat.lt_or_ge i v.size with h | h
  · rw [append, get_ofFn (Nat.add_lt_add_left h _), if_neg (by omega), Nat.add_sub_cancel_left]
  · rw [get_of_size_le h, get_of_size_le (by rw [size_append]; omega)]

theorem append_assoc (u v w : Vec α) : (u.append v).append w = u.append (v.append w) := by
  refine ext_get (by simp only [size_append, Nat.add_assoc]) fun i _ => ?_
  rcases Nat.lt_or_ge i u.size with hu | hu
  · rw [get_append_left hu, get_append_left (by rw [size_append]; omega), get_append_left hu]
  · obtain ⟨j, rfl⟩ := Nat.exists_eq_add_of_le hu
    rw [get_append_right]
    rcases Nat.lt_or_ge j v.size with hv | hv
    · rw [get_append_left hv, get_append_left (by rw [size_append]; omega), get_append_right]
    · obtain ⟨k, rfl⟩ := Nat.exists_eq_add_of_le hv
      rw [get_append_right, ← Nat.add_assoc, ← size_append, get_append_right]

theorem append_nil (u : Vec α) : u.append (concat []) = u := by
  refine ext_get (size_append u _) fun i hi => ?_
  exact get_append_left ((size_append u (concat [])).trans (Nat.add_zero _) ▸ hi)

theorem nil_append (u : Vec α) : (concat []).append u = u := by
  have hsize : ((concat []).append u).size = u.size := (size_append _ _).trans (Nat.zero_add _)
  refine ext_get hsize fun i _ => ?_
  have hget := get_append_right (concat []) u i
  rwa [show (concat [] : Vec α).size = 0 from rfl, Nat.zero_add] at hget

theorem concat_cons (v : Vec α) (rest : List (Vec α)) : concat (v :: rest) = v.append (concat rest) := rfl

end Joined

end Vec

namespace Mat
variable {K : Type} [ExactScalar K] {r c : Nat} {A B : Mat K}

def matrix (r c : Nat) (A : Mat K) : Matrix (Fin r) (Fin c) K := fun i j => A.get i j

/-- A matrix of zeros reads zero everywhere. -/
theorem get_zeros (r c i j : Nat) : (zeros r c : Mat K).get i j = 0 := by
  rw [get, Array.getD_eq_getD_getElem?]
  rcases Nat.lt_or_ge (i * c + j) (r * c) with h | h
  · simp [zeros, ofFn, h]
  · simp [zeros, ofFn, h]

theorem matrix_apply (A : Mat K) (i : Fin r) (j : Fin c) : A.matrix r c i j = A.get i j := rfl

theorem matrix_ofFn (f : Nat → Nat → K) :
    (ofFn r c f).matrix r c = fun (i : Fin r) (j : Fin c) => f i j :=
  funext fun i => funext fun j => get_ofFn i.isLt j.isLt

theorem coords_mulVec {x : Vec K} (hr : A.rows = r) (hc : A.cols = c) :
    (A.mulVec x).coords r = A.matrix r c *ᵥ x.coords c := by
  funext i
  rw [Vec.coords_apply, get_mulVec (hr ▸ i.isLt), Scalar.sum_eq_fin, hc]
  rfl

theorem coords_transposeMulVec {u : Vec K} (hr : A.rows = r) (hc : A.cols = c) :
    (A.transposeMulVec u).coords c = (A.matrix r c)ᵀ *ᵥ u.coords r := by
  funext j
  rw [Vec.coords_apply, get_transposeMulVec (hc ▸ j.isLt), Scalar.sum_eq_fin, hr]
  rfl

theorem neg_transposeMulVec {u : Vec K} (h : A.rows = u.size) :
    -A.transposeMulVec u = A.transposeMulVec (-u) := by
  refine Vec.eq_of_coords ((Vec.size_neg _).trans (size_transposeMulVec A u)) (size_transposeMulVec A (-u)) ?_
  rw [Vec.coords_neg (size_transposeMulVec A u), coords_transposeMulVec h rfl, coords_transposeMulVec h rfl,
    Vec.coords_neg rfl, mulVec_neg]

/-- A matrix may be moved to the other side of an inner product. -/
theorem dot_mulVec {u v : Vec K} (h : A.rows = u.size) : u.dot (A.mulVec v) = (A.transposeMulVec u).dot v := by
  rw [Vec.dot_eq rfl, Vec.dot_eq (size_transposeMulVec A u), coords_mulVec h rfl,
    coords_transposeMulVec h rfl, dotProduct_mulVec, mulVec_transpose]

theorem get_mulVec_zeros (A : Mat K) (n i : Nat) : (A.mulVec (Vec.zeros n)).get i = 0 := by
  rcases Nat.lt_or_ge i A.rows with h | h
  · rw [get_mulVec h, Scalar.sum_eq_range]
    exact Finset.sum_eq_zero fun j _ => by rw [Vec.get_zeros, mul_zero]
  · exact Vec.get_of_size_le (by rwa [size_mulVec])

/-! ### Matrices side by side -/

theorem get_beside_left {k j : Nat} (hk : k < A.rows) (hj : j < A.cols) :
    (A.beside B).get k j = A.get k j := by
  rw [beside, get_ofFn hk (Nat.lt_add_right _ hj), if_pos hj]

theorem get_beside_right {k j : Nat} (hk : k < A.rows) (hj : j < B.cols) :
    (A.beside B).get k (A.cols + j) = B.get k j := by
  rw [beside, get_ofFn hk (Nat.add_lt_add_left hj _), if_neg (by omega), Nat.add_sub_cancel_left]

/-- Matrices side by side take one vector after the other. -/
theorem mulVec_beside {u v : Vec K} (hrows : B.rows = A.rows) (hu : u.size = A.cols) :
    (A.beside B).mulVec (u.append v) = A.mulVec u + B.mulVec v := by
  refine Vec.ext_get (by rw [size_mulVec, Vec.size_add, size_mulVec]; rfl) fun k hk => ?_
  have hk : k < A.rows := size_mulVec (A.beside B) (u.append v) ▸ hk
  have hbeside : k < (A.beside B).rows := hk
  have hcols : (A.beside B).cols = A.cols + B.cols := rfl
  rw [Vec.get_add (by rwa [size_mulVec]), get_mulVec hbeside, get_mulVec hk, get_mulVec (hrows ▸ hk),
    Scalar.sum_eq_range, Scalar.sum_eq_range, Scalar.sum_eq_range, hcols, Finset.sum_range_add]
  congr 1
  · refine Finset.sum_congr rfl fun j hj => ?_
    have hj := Finset.mem_range.mp hj
    rw [get_beside_left hk hj, Vec.get_append_left (hu ▸ hj)]
  · refine Finset.sum_congr rfl fun j hj => ?_
    rw [get_beside_right hk (Finset.mem_range.mp hj), ← hu, Vec.get_append_right]

theorem mulVec_beside_zeros {u : Vec K} (n : Nat) (hrows : B.rows = A.rows) (hu : u.size = A.cols) :
    (A.beside B).mulVec (u.append (Vec.zeros n)) = A.mulVec u := by
  rw [mulVec_beside hrows hu]
  refine Vec.ext_get (Vec.size_add ..) fun k hk => ?_
  rw [Vec.get_add (Vec.size_add (A.mulVec u) (B.mulVec (Vec.zeros n)) ▸ hk), get_mulVec_zeros, add_zero]

end Mat
end BundleAdjustment
