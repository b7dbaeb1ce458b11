import BundleAdjustment.Proofs.Linear.Forms

/-!
Sums of products that may fail.

At a container and on a flat buffer a factor adds the products of its matrices with vectors, and the first
vector that is missing or has another length ends the sum. Both are `addParts`, of the vectors in a
container (`addProducts_eq`) or of those on spans (`foldlM_product`). A sum of scaled matrices is the
scaled sum, or the same fault (`addParts_mat`).
-/
namespace BundleAdjustment

/-- The product of a matrix with an array of at most one axis is that with a vector, which a single
number is not. -/
theorem Tensor.matmul_of_rank {α : Type} [Scalar α] (A : Mat α) {t : Tensor α} (h : t.rank ≤ 1) :
    (ofMat A).matmul t = t.toVec >>= fun x => ofVec <$> LinearFactor.product A x := by
  rcases Nat.le_one_iff_eq_zero_or_eq_one.mp h with h0 | h1
  · have hs : t.shape = [] := List.length_eq_zero_iff.mp h0
    simp only [matmul, toVec, vec?, hs, asRight, List.reverse_nil]
    rfl
  · obtain ⟨n, hn⟩ := List.length_eq_one_iff.mp h1
    obtain ⟨x, -, rfl⟩ := eq_ofVec hn
    rw [toVec_ofVec, ok_bind, LinearFactor.product]
    by_cases hx : A.cols = x.size
    · rw [matmul_ofMat_ofVec hx, if_pos hx]
      rfl
    · rw [matmul_ofMat_ofVec_of_ne hx, if_neg hx]
      rfl

variable {K : Type} [ExactScalar K]

namespace RowScaling

/-- Scaling the rows of a product's parts scales the rows of the sum. -/
theorem vec_add_mulVec {s : RowScaling K} {A : Mat K} {e : Vec K} (hinto : s.Into A.rows)
    (he : e.size = A.rows) (x : Vec K) : s.vec e + (s.mat A).mulVec x = s.vec (e + A.mulVec x) := by
  refine Vec.ext_get ?_ fun k hk => ?_
  · rw [Vec.size_add, vec, vec, Vec.size_ofFn, Vec.size_ofFn]
  · have hk : k < s.size := by simpa [vec] using hk
    have hsource : s.source k < e.size := he.symm ▸ hinto k hk
    rw [Vec.get_add (by simpa [vec] using hk), get_mat_mulVec hinto x hk, vec, vec, Vec.get_ofFn hk,
      Vec.get_ofFn hk, Vec.get_add hsource, add_mul]

theorem vec_scale {s : RowScaling K} {v : Vec K} (hinto : s.Into v.size) (c : K) :
    s.vec (v.scale c) = (s.vec v).scale c := by
  refine Vec.ext_get ?_ fun k hk => ?_
  · rw [Vec.size_scale, vec, vec, Vec.size_ofFn, Vec.size_ofFn]
  · have hk : k < s.size := by simpa [vec] using hk
    rw [Vec.get_scale (by simpa [vec] using hk), vec, vec, Vec.get_ofFn hk, Vec.get_ofFn hk,
      Vec.get_scale (hinto k hk), mul_assoc]

end RowScaling

namespace LinearFactor

/-- A vector with the product of a matrix and a vector added, if there is one. -/
def addProduct (A : Mat K) (x : Except Fault (Vec K)) (e : Vec K) : Except Fault (Vec K) := do
  return e + (← product A (← x))

/-- A vector with such products added one after the other. -/
def addParts (parts : List (Except Fault (Vec K) × Mat K)) (e : Vec K) : Except Fault (Vec K) :=
  parts.foldlM (fun e p => addProduct p.2 p.1 e) e

theorem addProduct_cases (A : Mat K) (x : Except Fault (Vec K)) :
    (∃ v, x = .ok v ∧ v.size = A.cols ∧ ∀ e, addProduct A x e = .ok (e + A.mulVec v)) ∨
      ∃ fault, ∀ (B : Mat K) (e : Vec K), B.cols = A.cols → addProduct B x e = .error fault := by
  cases x with
  | error fault => exact .inr ⟨fault, fun _ _ _ => rfl⟩
  | ok v =>
    by_cases hv : A.cols = v.size
    · refine .inl ⟨v, rfl, hv.symm, fun e => ?_⟩
      rw [addProduct, ok_bind, product, if_pos hv]
      rfl
    · refine .inr ⟨.shapeMismatch, fun B e hB => ?_⟩
      rw [addProduct, ok_bind, product, if_neg (hB ▸ hv)]
      rfl

theorem size_addProduct {A : Mat K} {x : Except Fault (Vec K)} {e e' : Vec K} (h : addProduct A x e = .ok e') :
    e'.size = e.size := by
  obtain ⟨v, -, -, hok⟩ | ⟨fault, herror⟩ := addProduct_cases A x
  · cases (hok e).symm.trans h
    exact Vec.size_add _ _
  · cases (herror A e rfl).symm.trans h

/-- Scaled matrices make scaled sums, and the same faults. -/
theorem addProduct_mat {s : RowScaling K} {A : Mat K} {e : Vec K} (hinto : s.Into A.rows)
    (he : e.size = A.rows) (x : Except Fault (Vec K)) :
    addProduct (s.mat A) x (s.vec e) = s.vec <$> addProduct A x e := by
  obtain ⟨v, rfl, hv, hok⟩ | ⟨fault, herror⟩ := addProduct_cases A x
  · rw [hok e, addProduct, ok_bind, product, if_pos (show (s.mat A).cols = v.size from hv.symm), ok_bind,
      RowScaling.vec_add_mulVec hinto he]
    rfl
  · rw [herror A e rfl, herror (s.mat A) (s.vec e) rfl]
    rfl

section Parts
variable {n : Nat} {parts : List (Except Fault (Vec K) × Mat K)} {e : Vec K}

theorem size_addParts {e' : Vec K} (h : addParts parts e = .ok e') : e'.size = e.size :=
  (foldlM_steps (P := fun u => u.size = e.size) (fun _ _ _ _ hu hstep => (size_addProduct hstep).trans hu) rfl h).1

theorem addParts_mat {s : RowScaling K} (hinto : s.Into n) (hrows : ∀ p ∈ parts, p.2.rows = n) (he : e.size = n) :
    addParts (parts.map fun p => (p.1, s.mat p.2)) (s.vec e) = s.vec <$> addParts parts e := by
  refine foldlM_map_eq (P := fun u => u.size = n) (fun _ _ _ _ hu hstep => (size_addProduct hstep).trans hu)
    (fun u p hp hu => ?_) he
  have hp : p.2.rows = n := hrows p hp
  exact addProduct_mat (hp.symm ▸ hinto) (hu.trans hp.symm) p.1

end Parts

/-- The vector of a key; an array of other axes is none. -/
def vectorAt (x : Container K) (key : Key) : Except Fault (Vec K) := do
  (← lookUp x key).toVec

/-- What a container has for keys is of at most one axis. -/
def OneAxis (x : Container K) (keys : List Key) : Prop := ∀ key ∈ keys, ∀ t, x.find? key = some t → t.rank ≤ 1

/-- The vectors that a container has for the keys of terms, and the matrices they go with. -/
def partsAt (x : Container K) (terms : List (Key × Mat K)) : List (Except Fault (Vec K) × Mat K) :=
  terms.map fun t => (vectorAt x t.1, t.2)

/-- In a container of arrays of at most one axis, the sum of the products is one of vectors. -/
theorem addProducts_eq {x : Container K} {terms : List (Key × Mat K)} {e : Vec K}
    (hx : OneAxis x (terms.map Prod.fst)) (hrows : ∀ t ∈ terms, t.2.rows = e.size) :
    addProducts x (.ofVec e) terms = Tensor.ofVec <$> addParts (partsAt x terms) e := by
  have hstep : ∀ (u : Vec K) (t : Key × Mat K), t ∈ terms → u.size = e.size →
      (do (Tensor.ofVec u).add (← (Tensor.ofMat t.2).matmul (← lookUp x t.1))) =
        Tensor.ofVec <$> addProduct t.2 (vectorAt x t.1) u := by
    intro u t ht hu
    rw [vectorAt, lookUp]
    cases hfound : x.find? t.1 with
    | none => rfl
    | some a =>
      have ha := hx t.1 (List.mem_map_of_mem ht) a hfound
      simp only [ok_bind, Tensor.matmul_of_rank t.2 ha]
      cases a.toVec with
      | error fault => rfl
      | ok v =>
        rw [ok_bind, addProduct, ok_bind, product]
        split
        · have hsize : u.size = (t.2.mulVec v).size := hu.trans ((hrows t ht).symm.trans (Mat.size_mulVec _ _).symm)
          exact Tensor.zipWith_ofVec (· + ·) hsize
        · rfl
  have hkeep : ∀ (u : Vec K) (t : Key × Mat K), t ∈ terms → ∀ u', u.size = e.size →
      addProduct t.2 (vectorAt x t.1) u = .ok u' → u'.size = e.size :=
    fun _ _ _ _ hu h => (size_addProduct h).trans hu
  rw [addParts, partsAt, List.foldlM_map, addProducts]
  nth_rewrite 1 [← List.map_id terms]
  exact foldlM_map_eq hkeep hstep rfl

/-- The vectors on spans of a buffer, and the matrices they go with. -/
def partsOn (x : Vec K) (places : List ((Int × Int) × Mat K)) : List (Except Fault (Vec K) × Mat K) :=
  places.map fun p => (.ok (Layout.readSpan x p.1), p.2)

theorem foldlM_product (x : Vec K) (places : List ((Int × Int) × Mat K)) (e : Vec K) :
    places.foldlM (fun e p => do return e + (← product p.2 (Layout.readSpan x p.1))) e =
      addParts (partsOn x places) e := by
  rw [addParts, partsOn, List.foldlM_map]
  rfl

omit [ExactScalar K] in
theorem rows_of_mem_zip {f : LinearFactor K} {spans : List (Int × Int)} :
    ∀ p ∈ spans.zip f.blocks, p.2.rows = f.rows := by
  intro p hp
  obtain ⟨e, he, hp⟩ := List.mem_map.mp (List.of_mem_zip hp).2
  rw [← hp]
  exact f.rows_eq e he

end LinearFactor
end BundleAdjustment
