import BundleAdjustment.Proofs.Linear.Scatter
import BundleAdjustment.Linear.Factor.Container
import BundleAdjustment.Linear.Factor.Flat

/-!
A factor on containers and on flat buffers.

Both forms of an operation read blocks, add up the products with them, whiten, and add onto blocks.
In a container the blocks are its arrays, in a flat buffer they are the places of spans. Where the
blocks and the places are there, each form is a short expression in `products` and `addBlocks`,
whose only fault is that of the whitening (`multiplyHessianAdd_eq`, `multiplyHessianAddFlat_eq`,
`hessianDiagonalFlat_eq`).
-/
namespace BundleAdjustment
open Layout
variable {K : Type} [ExactScalar K]

namespace LinearFactor

/-- The product `A x` of a factor's matrices with the blocks of `x`. -/
def image (f : LinearFactor K) (start : Key → Nat) (x : Vec K) : Vec K :=
  products start x (Vec.zeros f.rows) f.terms.entries

theorem size_image (f : LinearFactor K) (start : Key → Nat) (x : Vec K) : (f.image start x).size = f.rows :=
  (size_products ..).trans (Vec.size_zeros _)

/-- The buffer `y` with `Aᵀ u` added onto its blocks. -/
def addTranspose (f : LinearFactor K) (start : Key → Nat) (u y : Vec K) : Vec K :=
  addBlocks start (fun e => e.2.transposeMulVec u) y f.terms.entries

/-- The buffer `d` with the squared lengths of the whitened columns added onto its blocks. -/
def addSquares (f : LinearFactor K) (start : Key → Nat) (d : Vec K) : Vec K :=
  addBlocks start (fun e => (f.scaling.mat e.2).columnSquares) d f.terms.entries

theorem size_columnSquares (f : LinearFactor K) (A : Mat K) :
    (f.scaling.mat A).columnSquares.size = A.cols :=
  Vec.size_ofFn _ _

theorem scale_ofVec (c : K) (v : Vec K) : (Tensor.ofVec v).scale c = .ofVec (v.scale c) :=
  Tensor.map_ofVec _ v

/-! ### On containers -/

theorem matmul_transpose {A : Mat K} {u : Vec K} (h : A.rows = u.size) :
    (Tensor.ofMat A.transpose).matmul (.ofVec u) = .ok (.ofVec (A.transposeMulVec u)) := by
  rw [Tensor.matmul_ofMat_ofVec h, Mat.transpose_mulVec]

/-- The products of the terms with a vector for each, added up. -/
def sumProducts (value : Key × Mat K → Vec K) (e : Vec K) (terms : List (Key × Mat K)) : Vec K :=
  terms.foldl (fun e t => e + t.2.mulVec (value t)) e

theorem size_sumProducts (value : Key × Mat K → Vec K) (e : Vec K) (terms : List (Key × Mat K)) :
    (sumProducts value e terms).size = e.size := by
  induction terms generalizing e with
  | nil => rfl
  | cons t rest ih => exact (ih _).trans (Vec.size_add _ _)

/-- A container has a vector of the right length for every term. -/
def Supplies (x : Container K) (value : Key × Mat K → Vec K) (terms : List (Key × Mat K)) : Prop :=
  ∀ t ∈ terms, x.find? t.1 = some (.ofVec (value t)) ∧ (value t).size = t.2.cols

theorem addProducts_of_supplies {x : Container K} {value : Key × Mat K → Vec K} {e : Vec K}
    {terms : List (Key × Mat K)} (hx : Supplies x value terms) (hrows : ∀ t ∈ terms, t.2.rows = e.size) :
    addProducts x (.ofVec e) terms = .ok (.ofVec (sumProducts value e terms)) := by
  induction terms generalizing e with
  | nil => rfl
  | cons t rest ih =>
    obtain ⟨hfound, hcols⟩ := hx t (List.mem_cons_self ..)
    have hsize := Vec.size_add e (t.2.mulVec (value t))
    have hmul : (Tensor.ofMat t.2).matmul (.ofVec (value t)) = .ok (.ofVec (t.2.mulVec (value t))) :=
      Tensor.matmul_ofMat_ofVec hcols.symm
    have hadd : (Tensor.ofVec e).add (.ofVec (t.2.mulVec (value t))) =
        .ok (.ofVec (e + t.2.mulVec (value t))) :=
      Tensor.zipWith_ofVec (· + ·) ((hrows t (List.mem_cons_self ..)).symm.trans (Mat.size_mulVec _ _).symm)
    rw [addProducts, List.foldlM_cons, lookUp, hfound]
    simp only [ok_bind, hmul, hadd]
    exact ih (fun u hu => hx u (List.mem_cons_of_mem t hu))
      fun u hu => (hrows u (List.mem_cons_of_mem t hu)).trans hsize.symm

theorem errorVector_of_supplies {f : LinearFactor K} {x : Container K} {value : Key × Mat K → Vec K}
    (hx : Supplies x value f.terms.entries) :
    f.errorVector x = whitenTensor f.model (.ofVec (sumProducts value (-f.rhs) f.terms.entries)) := by
  rw [errorVector, addProducts_of_supplies hx fun e he => (f.rows_eq e he).trans (Vec.size_neg f.rhs).symm]
  rfl

/-- What the products add up to is whitened twice and transposed back. -/
theorem multiplyHessianAdd_of_products {f : LinearFactor K} {x : Container K} {r : Except Fault (Vec K)}
    (hr : addProducts x (.ofVec (Vec.zeros f.rows)) f.terms.entries = Tensor.ofVec <$> r)
    (hne : f.isEmpty = false) (scale : K) (y : Container K) :
    f.multiplyHessianAdd scale x y =
      r >>= fun v => whitenTwice f.model v >>= fun u =>
        addTransposed (.ofVec (u.scale scale)) y f.terms.entries := by
  rw [multiplyHessianAdd, hne, if_neg Bool.false_ne_true, hr]
  cases r with
  | error e => rfl
  | ok v =>
    show (whitenTensor f.model (.ofVec v) >>=
      fun e => whitenTensor f.model e >>= fun e => addTransposed (e.scale scale) y f.terms.entries) = _
    rw [← bind_assoc, whitenTensor_twice, ok_bind]
    cases whitenTwice f.model v with
    | error e => rfl
    | ok u =>
      show addTransposed ((Tensor.ofVec u).scale scale) y f.terms.entries = _
      rw [scale_ofVec]
      rfl

theorem multiplyHessianAdd_of_supplies {f : LinearFactor K} {x : Container K} {value : Key × Mat K → Vec K}
    (hx : Supplies x value f.terms.entries) (hne : f.isEmpty = false) (scale : K) (y : Container K) :
    f.multiplyHessianAdd scale x y =
      whitenTwice f.model (sumProducts value (Vec.zeros f.rows) f.terms.entries) >>= fun u =>
        addTransposed (.ofVec (u.scale scale)) y f.terms.entries :=
  multiplyHessianAdd_of_products (r := .ok _)
    (addProducts_of_supplies hx fun e he => (f.rows_eq e he).trans (Vec.size_zeros f.rows).symm) hne scale y

theorem supplies_of_found {x : Container K} {start : Key → Nat} {b : Vec K} {terms : List (Key × Mat K)}
    (hx : ∀ t ∈ terms, x.find? t.1 = some (.ofVec (block b (start t.1) t.2.cols))) :
    Supplies x (fun t => block b (start t.1) t.2.cols) terms :=
  fun t ht => ⟨hx t ht, size_block _ _ _⟩

theorem multiplyHessianAdd_eq {f : LinearFactor K} {start : Key → Nat} {x : Container K} {b : Vec K}
    (hx : ∀ t ∈ f.terms.entries, x.find? t.1 = some (.ofVec (block b (start t.1) t.2.cols)))
    (hne : f.isEmpty = false) (scale : K) (y : Container K) :
    f.multiplyHessianAdd scale x y =
      whitenTwice f.model (f.image start b) >>= fun u =>
        addTransposed (.ofVec (u.scale scale)) y f.terms.entries :=
  multiplyHessianAdd_of_supplies (supplies_of_found hx) hne scale y

/-! ### On spans -/

/-- Vectors are added onto the places of the spans. -/
theorem foldlM_addSpan_eq {span : Key → Int × Int} {start : Key → Nat} {terms : List (Key × Mat K)}
    {B : Key × Mat K → Mat K} {g : Mat K → Vec K} {y : Vec K}
    (h : ∀ e ∈ terms, Covers y.size (span e.1) (start e.1) (g (B e)).size) :
    (terms.map fun e => (span e.1, B e)).foldlM (fun y s => addSpan y s.1 (g s.2)) y =
      .ok (addBlocks start (fun e => g (B e)) y terms) := by
  induction terms generalizing y with
  | nil => rfl
  | cons e rest ih =>
    rw [List.map_cons, List.foldlM_cons, addSpan_of_covers (h e (List.mem_cons_self ..))]
    refine ih fun u hu => ?_
    rw [size_addBlock]
    exact h u (List.mem_cons_of_mem e hu)

theorem foldlM_product_eq {span : Key → Int × Int} {start : Key → Nat} {terms : List (Key × Mat K)}
    {x e : Vec K} (h : ∀ t ∈ terms, Covers x.size (span t.1) (start t.1) t.2.cols) :
    (terms.map fun t => (span t.1, t.2)).foldlM
        (fun e s => return e + (← product s.2 (readSpan x s.1))) e =
      Except.ok (products start x e terms) := by
  induction terms generalizing e with
  | nil => rfl
  | cons t rest ih =>
    have hprod : product t.2 (readSpan x (span t.1)) = .ok (t.2.mulVec (block x (start t.1) t.2.cols)) := by
      rw [readSpan_of_covers (h t (List.mem_cons_self ..)), product, if_pos (size_block _ _ _).symm]
    rw [List.map_cons, List.foldlM_cons, hprod]
    exact ih fun u hu => h u (List.mem_cons_of_mem t hu)

omit [ExactScalar K] in
theorem flatSpans_eq {f : LinearFactor K} {width : Int} {layout : Option Layout} {span : Key → Int × Int}
    {start : Key → Nat} {length : Nat} (hs : ∀ e ∈ f.terms.entries, flatSpan width layout e.1 = .ok (span e.1))
    (h : ∀ e ∈ f.terms.entries, Covers length (span e.1) (start e.1) e.2.cols) :
    flatSpans width layout [length] f.keys = .ok (f.terms.entries.map fun e => span e.1) := by
  refine mapM_eq_ok.mpr ?_
  rw [LinearFactor.keys, Table.keys, List.map_map, List.map_map]
  refine List.map_congr_left fun e he => ?_
  show (do
    let s ← flatSpan width layout e.1
    checkFits [length] e.1 s
    return s) = _
  rw [hs e he]
  simp only [ok_bind, checkFits_of_covers (h e he)]
  rfl

omit [ExactScalar K] in
/-- The matrices of a factor of one width have it. -/
theorem cols_of_uniform {f : LinearFactor K} {width : Int} (hk : f.kind = .uniform width) :
    ∀ e ∈ f.terms.entries, (e.2.cols : Int) = width := by
  have hfits := f.fits
  rw [hk] at hfits
  exact fun e he => hfits _ (List.mem_map_of_mem he)

section Flat
variable {f : LinearFactor K} {width : Int} {layout : Option Layout} {span : Key → Int × Int}
  {start : Key → Nat} (hs : ∀ e ∈ f.terms.entries, flatSpan width layout e.1 = .ok (span e.1))
include hs

theorem multiplyHessianAddFlat_eq {x y : Vec K}
    (hx : ∀ e ∈ f.terms.entries, Covers x.size (span e.1) (start e.1) e.2.cols)
    (hy : ∀ e ∈ f.terms.entries, Covers y.size (span e.1) (start e.1) e.2.cols)
    (hne : f.isEmpty = false) (scale : K) :
    f.multiplyHessianAddFlat width layout scale (.ofVec x) (.ofVec y) =
      whitenTwice f.model (f.image start x) >>= fun u =>
        .ok (.ofVec (f.addTranspose start (u.scale scale) y)) := by
  have hzip : (f.terms.entries.map fun e => span e.1).zip f.blocks =
      f.terms.entries.map fun e => (span e.1, e.2) := by
    rw [blocks, List.zip_map']
  have hprod := foldlM_product_eq (e := Vec.zeros f.rows) hx
  rw [multiplyHessianAddFlat, hne, if_neg Bool.false_ne_true, Tensor.shape_ofVec, Tensor.shape_ofVec,
    flatSpans_eq hs hx, flatSpans_eq hs hy]
  simp only [ok_bind, Tensor.flatten_ofVec, hzip, hprod]
  show (whitenTwice f.model (f.image start x) >>= fun e => _) = _
  cases whitenTwice f.model (f.image start x) with
  | error e => rfl
  | ok u =>
    have hadd := foldlM_addSpan_eq (B := fun e => e.2) (y := y)
      (g := fun A => A.transposeMulVec (u.scale scale)) fun e he =>
        (Mat.size_transposeMulVec e.2 (u.scale scale)).symm ▸ hy e he
    simp only [ok_bind, hadd]
    rfl

theorem hessianDiagonalFlat_eq {d : Vec K}
    (hd : ∀ e ∈ f.terms.entries, Covers d.size (span e.1) (start e.1) e.2.cols) (hne : f.isEmpty = false) :
    f.hessianDiagonalFlat width layout (.ofVec d) =
      f.whitenedSystem >>= fun _ => .ok (.ofVec (f.addSquares start d)) := by
  rw [hessianDiagonalFlat, hne, if_neg Bool.false_ne_true, Tensor.shape_ofVec, flatSpans_eq hs hd, ok_bind]
  cases hsystem : f.whitenedSystem with
  | error e => rfl
  | ok s =>
    obtain ⟨t, b⟩ := s
    have hzip : (f.terms.entries.map fun e => span e.1).zip (t.entries.map Prod.snd) =
        f.terms.entries.map fun e => (span e.1, f.scaling.mat e.2) := by
      rw [(whitenedSystem_eq hsystem).1, List.map_map, List.zip_map']
      rfl
    have hadd := foldlM_addSpan_eq (B := fun e => f.scaling.mat e.2) (g := Mat.columnSquares) (y := d)
      fun e he => (size_columnSquares f e.2).symm ▸ hd e he
    simp only [ok_bind, Tensor.flatten_ofVec, hzip, hadd]
    rfl

end Flat

end LinearFactor
end BundleAdjustment
