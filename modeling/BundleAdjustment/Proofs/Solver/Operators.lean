import BundleAdjustment.Proofs.Solver.Loops

/-!
The normal equations of many factors, as linear algebra.

With `A` the matrices of a factor among all columns and `W` its whitening, the factor's parts are
`Aᵀ Wᵀ W A` of the Hessian and `Aᵀ Wᵀ W b` of the right-hand side. Factors of every kind add them
onto the buffers, so that the operators are the product with the sum (`multiplyHessian_eq`), its
diagonal (`hessianDiagonal_eq`) and the right-hand side with its sign changed (`gradientAtZero_eq`).
-/
namespace BundleAdjustment
open Matrix Layout
variable {K : Type} [ExactScalar K]

namespace LinearFactor

/-- What the operators ask of a factor: each key has its places, and each row its deviation. -/
structure Applies (f : LinearFactor K) (l : Layout) : Prop where
  inLayout : f.InLayout l
  onePerRow : OnePerRow f.model f.rows

omit [ExactScalar K] in
theorem Applies.covers {f : LinearFactor K} {l : Layout} (h : f.Applies l) {n : Nat} (hn : n = l.length) :
    ∀ e ∈ f.terms.entries, Covers n (l.spanOf e.1) (l.start e.1) e.2.cols :=
  fun e he => hn ▸ (h.inLayout e he).covers

/-- What the product and the diagonal ask of a factor. One without keys adds nothing to either; its row, if it
has a single one, may be weighed by any number of deviations. -/
structure Contributes (f : LinearFactor K) (l : Layout) : Prop where
  inLayout : f.InLayout l
  rows : OnePerRow f.model f.rows ∨ f.isEmpty = true ∧ f.rows = 1

omit [ExactScalar K] in
theorem Applies.contributes {f : LinearFactor K} {l : Layout} (h : f.Applies l) : f.Contributes l :=
  ⟨h.inLayout, .inl h.onePerRow⟩

omit [ExactScalar K] in
theorem Contributes.suits {f : LinearFactor K} {l : Layout} (h : f.Contributes l) : Suits f.model f.rows :=
  h.rows.elim .inr fun h1 => .inl h1.2

/-- `Aᵀ Wᵀ W A`, a factor's part of the Hessian. -/
def hessianMatrix (f : LinearFactor K) (start : Key → Nat) (n : Nat) : Matrix (Fin n) (Fin n) K :=
  (f.spread start n)ᵀ * (f.whiteningᵀ * f.whitening) * f.spread start n

theorem hessianMatrix_of_isEmpty {f : LinearFactor K} (h : f.isEmpty = true) (start : Key → Nat) (n : Nat) :
    f.hessianMatrix start n = 0 := by
  rw [hessianMatrix, spread_of_isEmpty h, Matrix.mul_zero]

/-- `Aᵀ Wᵀ W b`, a factor's part of the right-hand side. -/
def normalRhs (f : LinearFactor K) (start : Key → Nat) (n : Nat) : Fin n → K :=
  (f.spread start n)ᵀ *ᵥ ((f.whiteningᵀ * f.whitening) *ᵥ f.rhs.coords f.rows)

end LinearFactor

namespace Solver
open LinearFactor

/-! ### The product of one factor -/

/-- What a factor multiplies onto a vector, before its transposed matrices. -/
def weighted (f : LinearFactor K) (l : Layout) (scale : K) (x : Vec K) : Vec K :=
  (f.scaling.vec (f.scaling.vec (f.image l.start x))).scale scale

theorem size_weighted {f : LinearFactor K} {l : Layout} (h : f.Applies l) (scale : K) (x : Vec K) :
    (weighted f l scale x).size = f.rows :=
  (Vec.size_scale _ _).trans (size_vec_scaling h.onePerRow _)

theorem addProductFlat_eq {f : LinearFactor K} {l : Layout} {width : Int} (h : f.Applies l)
    (hk : f.kind = .uniform width) (scale : K) {x y : Vec K} (hx : x.size = l.length)
    (hy : y.size = l.length) :
    f.multiplyHessianAddFlat width (some l) scale (.ofVec x) (.ofVec y) =
      .ok (.ofVec (f.addTranspose l.start (weighted f l scale x) y)) := by
  cases hne : f.isEmpty with
  | true =>
    have hnil : f.terms.entries = [] := List.isEmpty_iff.mp hne
    rw [multiplyHessianAddFlat, hne, addTranspose, hnil]
    rfl
  | false =>
    rw [multiplyHessianAddFlat_eq (flatSpan_of_inLayout h.inLayout hk) (h.covers hx) (h.covers hy) hne,
      whitenTwice_of_onePerRow h.onePerRow (size_image f l.start x)]
    rfl

theorem addProductContainer_eq {f : LinearFactor K} {l : Layout} (h : f.Applies l) (scale : K)
    {x : Vec K} (hx : x.size = l.length) :
    ∃ t blocks, gatherAll l (.ofVec x) f.keys = .ok t ∧
      f.multiplyHessianAdd scale t Table.empty = .ok blocks ∧
      blocks.entries = f.terms.entries.map fun e =>
        (e.1, .ofVec (e.2.transposeMulVec (weighted f l scale x))) := by
  obtain ⟨t, ht, hfound, -⟩ := foldlM_gather_eq Table.empty hx h.inLayout f.terms.distinct
  obtain ⟨blocks, hblocks, hentries⟩ := addTransposed_eq (u := weighted f l scale x) (y := Table.empty)
    (fun e he => (f.rows_eq e he).trans (size_weighted h scale x).symm) f.terms.distinct
  refine ⟨t, ?_⟩
  cases hne : f.isEmpty with
  | true =>
    have hnil : f.terms.entries = [] := List.isEmpty_iff.mp hne
    refine ⟨Table.empty, ht, ?_, ?_⟩
    · rw [multiplyHessianAdd, hne]
      rfl
    · rw [hnil]
      rfl
  | false =>
    refine ⟨blocks, ht, ?_, hentries⟩
    rw [multiplyHessianAdd_eq hfound hne, whitenTwice_of_onePerRow h.onePerRow (size_image f l.start x)]
    exact hblocks

theorem addProduct_eq {f : LinearFactor K} {l : Layout} (h : f.Applies l) (scale : K) {x y : Vec K}
    (hx : x.size = l.length) (hy : y.size = l.length) :
    ∃ y', addProduct l scale (.ofVec x) y f = .ok y' ∧ y'.size = l.length ∧
      y'.coords l.length =
        y.coords l.length + scale • (f.hessianMatrix l.start l.length *ᵥ x.coords l.length) := by
  refine ⟨f.addTranspose l.start (weighted f l scale x) y, ?_, (size_addBlocks ..).trans hy, ?_⟩
  · obtain ⟨t, blocks, ht, hblocks, hentries⟩ := addProductContainer_eq h scale hx
    have hscatter := scatterAll_eq (y := y) hy
      (fun e he => (Mat.size_transposeMulVec e.2 (weighted f l scale x)).symm ▸ h.inLayout e he) hentries
    have hcontainer : (do
        scatterAll l y (← f.multiplyHessianAdd scale (← gatherAll l (.ofVec x) f.keys) Table.empty)) =
          .ok (f.addTranspose l.start (weighted f l scale x) y) := by
      rw [ht, ok_bind, hblocks, ok_bind, hscatter]
      rfl
    unfold addProduct
    cases hk : f.kind with
    | general => exact hcontainer
    | pair => exact hcontainer
    | uniform width =>
      simp only [addProductFlat_eq h hk scale hx hy, ok_bind]
      rfl
  · have hsize := size_vec_scaling h.onePerRow (f.scaling.vec (f.image l.start x))
    rw [addTranspose, coords_addBlocks _ hy, weighted, Vec.coords_scale _ hsize, coords_vec_twice h.onePerRow,
      image, coords_products h.inLayout x (Vec.size_zeros _), Vec.coords_zeros, zero_add, Matrix.mulVec_smul,
      Matrix.mulVec_mulVec, Matrix.mulVec_mulVec, hessianMatrix, Matrix.mul_assoc]

theorem addProduct_of_isEmpty {f : LinearFactor K} (h : f.isEmpty = true) (l : Layout) (scale : K)
    (x : Tensor K) (y : Vec K) : addProduct l scale x y f = .ok y := by
  have hkeys : f.keys = [] := congrArg (List.map Prod.fst) (List.isEmpty_iff.mp h)
  unfold addProduct
  cases f.kind with
  | uniform width =>
    simp only [multiplyHessianAddFlat, h, if_true]
    rfl
  | _ =>
    simp only [hkeys, multiplyHessianAdd, h, if_true]
    rfl

theorem addProduct_of_contributes {f : LinearFactor K} {l : Layout} (h : f.Contributes l) (scale : K)
    {x y : Vec K} (hx : x.size = l.length) (hy : y.size = l.length) :
    ∃ y', addProduct l scale (.ofVec x) y f = .ok y' ∧ y'.size = l.length ∧
      y'.coords l.length =
        y.coords l.length + scale • (f.hessianMatrix l.start l.length *ᵥ x.coords l.length) := by
  rcases h.rows with hone | ⟨hne, -⟩
  · exact addProduct_eq ⟨h.inLayout, hone⟩ scale hx hy
  · refine ⟨y, addProduct_of_isEmpty hne l scale _ y, hy, ?_⟩
    rw [hessianMatrix_of_isEmpty hne, zero_mulVec, smul_zero, add_zero]

/-! ### The diagonal of one factor -/

/-- Where at most one of several numbers counts, the square of their sum is that of the one. -/
theorem sum_mul_self_of_exclusive {ι : Type} {l : List ι} {P : ι → Prop} [DecidablePred P] (a : ι → K)
    (h : l.Pairwise fun i j => ¬ (P i ∧ P j)) :
    (l.map fun i => if P i then a i * a i else 0).sum =
      (l.map fun i => if P i then a i else 0).sum * (l.map fun i => if P i then a i else 0).sum := by
  induction l with
  | nil => simp
  | cons i rest ih =>
    obtain ⟨hi, hrest⟩ := List.pairwise_cons.mp h
    simp only [List.map_cons, List.sum_cons]
    rw [ih hrest]
    by_cases hp : P i
    · have hzero : (rest.map fun j => if P j then a j else 0).sum = 0 := by
        refine List.sum_eq_zero fun v hv => ?_
        obtain ⟨j, hj, rfl⟩ := List.mem_map.mp hv
        rw [if_neg fun hj' => hi j hj ⟨hp, hj'⟩]
      simp only [if_pos hp, hzero, mul_zero, add_zero]
    · simp only [if_neg hp, zero_add]

theorem sum_map_sum {ι : Type} (l : List ι) (s : Finset Nat) (F : ι → Nat → K) :
    (l.map fun i => ∑ k ∈ s, F i k).sum = ∑ k ∈ s, (l.map fun i => F i k).sum := by
  induction l with
  | nil => simp
  | cons i rest ih =>
    simp only [List.map_cons, List.sum_cons, Finset.sum_add_distrib, ih]

omit [ExactScalar K] in
/-- No place lies in the blocks of two terms. -/
theorem exclusive_places {f : LinearFactor K} {l : Layout} (hl : l.Proper) (hf : f.InLayout l) (c : Nat) :
    f.terms.entries.Pairwise fun e e' =>
      ¬ ((l.start e.1 ≤ c ∧ c < l.start e.1 + e.2.cols) ∧
        (l.start e'.1 ≤ c ∧ c < l.start e'.1 + e'.2.cols)) := by
  have hkeys : f.terms.entries.Pairwise fun e e' => e.1 ≠ e'.1 := List.pairwise_map.mp f.terms.distinct
  refine hkeys.imp_of_mem fun he he' hne hc => ?_
  exact hne (hl.eq_of_place (hf _ he) (hf _ he') hc.1 hc.2)

theorem hessianMatrix_diag {f : LinearFactor K} {l : Layout} (h : f.Applies l) (c : Fin l.length) :
    (f.hessianMatrix l.start l.length).diag c = ∑ k ∈ Finset.range f.rows,
      (spreadAt l.start f.terms.entries k c * f.scaling.scale k) *
        (spreadAt l.start f.terms.entries k c * f.scaling.scale k) := by
  rw [Matrix.diag_apply, hessianMatrix, whitening_gram h.onePerRow, Matrix.mul_apply, Finset.sum_range]
  refine Finset.sum_congr rfl fun k _ => ?_
  rw [Matrix.mul_diagonal, Matrix.transpose_apply]
  show spreadAt l.start f.terms.entries k c * _ * spreadAt l.start f.terms.entries k c = _
  ring

/-- The squares of one whitened column, at its place. -/
theorem get_columnSquares {f : LinearFactor K} {l : Layout} (h : f.Applies l) (A : Mat K) {j : Nat}
    (hj : j < A.cols) :
    (f.scaling.mat A).columnSquares.get j = ∑ k ∈ Finset.range f.rows,
      (A.get k j * f.scaling.scale k) * (A.get k j * f.scaling.scale k) := by
  have hsize : (f.scaling.mat A).rows = f.rows := size_scaling h.onePerRow
  have hj' : j < (f.scaling.mat A).cols := hj
  rw [Mat.columnSquares, Vec.get_ofFn hj', Scalar.sum_eq_range, hsize]
  refine Finset.sum_congr rfl fun k hk => ?_
  rw [get_mat_scaling h.onePerRow A (Finset.mem_range.mp hk) hj]

theorem coords_addSquares {f : LinearFactor K} {l : Layout} (hl : l.Proper) (h : f.Applies l)
    {d : Vec K} (hd : d.size = l.length) :
    (f.addSquares l.start d).coords l.length =
      d.coords l.length + (f.hessianMatrix l.start l.length).diag := by
  funext c
  have hsquares : ∀ e ∈ f.terms.entries,
      (if l.start e.1 ≤ c ∧ c < l.start e.1 + (f.scaling.mat e.2).columnSquares.size then
        (f.scaling.mat e.2).columnSquares.get (c - l.start e.1) else 0) =
      ∑ k ∈ Finset.range f.rows, if l.start e.1 ≤ c ∧ c < l.start e.1 + e.2.cols then
        (e.2.get k (c - l.start e.1) * f.scaling.scale k) *
          (e.2.get k (c - l.start e.1) * f.scaling.scale k) else 0 := by
    intro e _
    rw [size_columnSquares]
    by_cases hc : l.start e.1 ≤ c ∧ c < l.start e.1 + e.2.cols
    · have hj : c - l.start e.1 < e.2.cols := by omega
      simp only [if_pos hc]
      exact get_columnSquares h e.2 hj
    · simp only [if_neg hc, Finset.sum_const_zero]
  rw [Vec.coords_apply, addSquares, get_addBlocks l.start _ _ (hd.symm ▸ c.isLt), List.map_congr_left hsquares,
    sum_map_sum, Pi.add_apply, hessianMatrix_diag h, Vec.coords_apply]
  congr 1
  refine Finset.sum_congr rfl fun k _ => ?_
  have hspread : spreadAt l.start f.terms.entries k c * f.scaling.scale k =
      (f.terms.entries.map fun e => if l.start e.1 ≤ c ∧ c < l.start e.1 + e.2.cols then
        e.2.get k (c - l.start e.1) * f.scaling.scale k else 0).sum := by
    rw [spreadAt, ← List.sum_map_mul_right]
    simp only [ite_mul, zero_mul]
  rw [hspread]
  exact sum_mul_self_of_exclusive _ (exclusive_places hl h.inLayout c)

theorem addDiagonalFlat_eq {f : LinearFactor K} {l : Layout} {width : Int} (h : f.Applies l)
    (hk : f.kind = .uniform width) {d : Vec K} (hd : d.size = l.length) :
    f.hessianDiagonalFlat width (some l) (.ofVec d) = .ok (.ofVec (f.addSquares l.start d)) := by
  obtain ⟨t, hsystem, -⟩ := whitenedSystem_of_onePerRow h.onePerRow
  cases hne : f.isEmpty with
  | true =>
    have hnil : f.terms.entries = [] := List.isEmpty_iff.mp hne
    rw [hessianDiagonalFlat, hne, addSquares, hnil]
    rfl
  | false =>
    rw [hessianDiagonalFlat_eq (flatSpan_of_inLayout h.inLayout hk) (h.covers hd) hne, hsystem]
    rfl

theorem addDiagonal_of_applies {f : LinearFactor K} {l : Layout} (h : f.Applies l) {d : Vec K}
    (hd : d.size = l.length) : addDiagonal l d f = .ok (f.addSquares l.start d) := by
  obtain ⟨t, hsystem, hentries⟩ := whitenedSystem_of_onePerRow h.onePerRow
  have hblocks : (asContainer (t.mapValues fun _ A => A.columnSquares)).entries =
      f.terms.entries.map fun e => (e.1, .ofVec (f.scaling.mat e.2).columnSquares) := by
    simp only [asContainer, Table.mapValues, hentries, List.map_map, Function.comp_def]
  have hscatter := scatterAll_eq hd (fun e he => (size_columnSquares f e.2).symm ▸ h.inLayout e he) hblocks
  have hcontainer : (do scatterAll l d (asContainer (← f.hessianDiagonal))) = .ok (f.addSquares l.start d) := by
    rw [LinearFactor.hessianDiagonal, hsystem]
    exact hscatter
  unfold addDiagonal
  cases hk : f.kind with
  | general => exact hcontainer
  | pair => exact hcontainer
  | uniform width =>
    simp only [addDiagonalFlat_eq h hk hd, ok_bind]
    rfl

theorem addDiagonal_eq {f : LinearFactor K} {l : Layout} (hl : l.Proper) (h : f.Applies l) {d : Vec K}
    (hd : d.size = l.length) :
    ∃ d', addDiagonal l d f = .ok d' ∧ d'.size = l.length ∧
      d'.coords l.length = d.coords l.length + (f.hessianMatrix l.start l.length).diag :=
  ⟨f.addSquares l.start d, addDiagonal_of_applies h hd, (size_addBlocks ..).trans hd, coords_addSquares hl h hd⟩

theorem addDiagonal_of_isEmpty {f : LinearFactor K} (h : f.isEmpty = true) (hs : Suits f.model f.rows)
    (l : Layout) (d : Vec K) : addDiagonal l d f = .ok d := by
  obtain ⟨t, b, hsystem, hkeys, -⟩ := exists_whitenedSystem hs
  have hnil : t.entries = [] := by
    rw [LinearFactor.keys, Table.keys, Table.keys, List.isEmpty_iff.mp h] at hkeys
    exact List.map_eq_nil_iff.mp hkeys
  unfold addDiagonal
  cases f.kind with
  | uniform width =>
    simp only [hessianDiagonalFlat, h, if_true]
    rfl
  | _ =>
    simp only [LinearFactor.hessianDiagonal, hsystem, ok_bind, Table.mapValues, hnil]
    rfl

theorem addDiagonal_of_contributes {f : LinearFactor K} {l : Layout} (hl : l.Proper) (h : f.Contributes l)
    {d : Vec K} (hd : d.size = l.length) :
    ∃ d', addDiagonal l d f = .ok d' ∧ d'.size = l.length ∧
      d'.coords l.length = d.coords l.length + (f.hessianMatrix l.start l.length).diag := by
  rcases h.rows with hone | ⟨hne, -⟩
  · exact addDiagonal_eq hl ⟨h.inLayout, hone⟩ hd
  · refine ⟨d, addDiagonal_of_isEmpty hne h.suits l d, hd, ?_⟩
    rw [hessianMatrix_of_isEmpty hne, diag_zero, add_zero]

/-! ### The gradient of one factor -/

theorem addGradient_eq {f : LinearFactor K} {l : Layout} (h : f.Applies l) {g : Vec K}
    (hg : g.size = l.length) :
    ∃ g', addGradient l g f = .ok g' ∧ g'.size = l.length ∧
      g'.coords l.length = g.coords l.length - f.normalRhs l.start l.length := by
  have hsize := size_vec_scaling h.onePerRow (f.scaling.vec f.rhs)
  have hblocks : (asContainer (f.terms.mapValues fun _ A =>
      -A.transposeMulVec (f.scaling.vec (f.scaling.vec f.rhs)))).entries =
      f.terms.entries.map fun e =>
        (e.1, .ofVec (e.2.transposeMulVec (-f.scaling.vec (f.scaling.vec f.rhs)))) := by
    simp only [asContainer, Table.mapValues, List.map_map, Function.comp_def]
    refine List.map_congr_left fun e he => ?_
    rw [Mat.neg_transposeMulVec ((f.rows_eq e he).trans hsize.symm)]
  have hscatter := scatterAll_eq hg
    (fun e he => (Mat.size_transposeMulVec e.2 (-f.scaling.vec (f.scaling.vec f.rhs))).symm ▸ h.inLayout e he)
    hblocks
  refine ⟨addBlocks l.start (fun e => e.2.transposeMulVec (-f.scaling.vec (f.scaling.vec f.rhs))) g
    f.terms.entries, ?_, (size_addBlocks ..).trans hg, ?_⟩
  · rw [addGradient_byKey, addGradientByKey, LinearFactor.gradientAtZero,
      whitenTwice_of_onePerRow h.onePerRow rfl]
    exact hscatter
  · rw [coords_addBlocks _ hg, Vec.coords_neg hsize, coords_vec_twice h.onePerRow, Matrix.mulVec_neg,
      ← sub_eq_add_neg]
    rfl

/-! ### Many factors -/

def hessianSum (l : Layout) (factors : List (LinearFactor K)) : Matrix (Fin l.length) (Fin l.length) K :=
  (factors.map fun f => f.hessianMatrix l.start l.length).sum

def rhsSum (l : Layout) (factors : List (LinearFactor K)) : Fin l.length → K :=
  (factors.map fun f => f.normalRhs l.start l.length).sum

theorem hessianSum_mulVec (l : Layout) (factors : List (LinearFactor K)) (v : Fin l.length → K) :
    hessianSum l factors *ᵥ v = (factors.map fun f => f.hessianMatrix l.start l.length *ᵥ v).sum := by
  rw [hessianSum]
  exact (map_list_sum (Matrix.mulVec.addMonoidHomLeft v) _).trans (by rw [List.map_map]; rfl)

theorem mulVec_damped {n : Nat} (H : Matrix (Fin n) (Fin n) K) (d v : Fin n → K) (c : K) :
    (H + c • Matrix.diagonal d) *ᵥ v = H *ᵥ v + c • (d * v) := by
  rw [add_mulVec, smul_mulVec]
  congr 2
  funext i
  rw [mulVec_diagonal, Pi.mul_apply]

/-- What each factor adds to a buffer is added up. -/
theorem foldlM_add_eq {F : Type} {n : Nat} {step : Vec K → F → Except Fault (Vec K)} (part : F → Fin n → K)
    {factors : List F} {y : Vec K} (hy : y.size = n)
    (h : ∀ f ∈ factors, ∀ y : Vec K, y.size = n →
      ∃ y', step y f = .ok y' ∧ y'.size = n ∧ y'.coords n = y.coords n + part f) :
    ∃ y', factors.foldlM step y = .ok y' ∧ y'.size = n ∧
      y'.coords n = y.coords n + (factors.map part).sum := by
  induction factors generalizing y with
  | nil => exact ⟨y, rfl, hy, (add_zero _).symm⟩
  | cons f rest ih =>
    obtain ⟨y₁, h₁, hs₁, hc₁⟩ := h f (List.mem_cons_self ..) y hy
    obtain ⟨y₂, h₂, hs₂, hc₂⟩ := ih hs₁ fun g hg => h g (List.mem_cons_of_mem f hg)
    refine ⟨y₂, ?_, hs₂, ?_⟩
    · rw [List.foldlM_cons, h₁]
      exact h₂
    · rw [hc₂, hc₁, List.map_cons, List.sum_cons, add_assoc]

theorem zeros_eq {l : Layout} (hl : 0 ≤ l.size) : (l.zeros : Except Fault (Vec K)) = .ok (Vec.zeros l.length) := by
  rw [Layout.zeros, Tensor.zeros, if_pos hl]
  rfl

/-- The product needs no layout whose spans are apart. -/
theorem multiplyHessian_of_contributes {factors : List (LinearFactor K)} {l : Layout} (hl : 0 ≤ l.size)
    (h : ∀ f ∈ factors, f.Contributes l) (scale : K) {x : Vec K} (hx : x.size = l.length) :
    ∃ y, multiplyHessian factors (.ofVec x) l scale = .ok y ∧ y.size = l.length ∧
      y.coords l.length = scale • (hessianSum l factors *ᵥ x.coords l.length) := by
  obtain ⟨y, hy, hs, hc⟩ := foldlM_add_eq
    (fun f : LinearFactor K => scale • (f.hessianMatrix l.start l.length *ᵥ x.coords l.length))
    (Vec.size_zeros l.length) fun f hf y hy => addProduct_of_contributes (h f hf) scale hx hy
  refine ⟨y, ?_, hs, ?_⟩
  · rw [multiplyHessian, zeros_eq hl]
    exact hy
  · rw [hc, Vec.coords_zeros, zero_add, hessianSum_mulVec, List.smul_sum, List.map_map]
    rfl

theorem multiplyHessian_of_applies {factors : List (LinearFactor K)} {l : Layout} (hl : 0 ≤ l.size)
    (h : ∀ f ∈ factors, f.Applies l) (scale : K) {x : Vec K} (hx : x.size = l.length) :
    ∃ y, multiplyHessian factors (.ofVec x) l scale = .ok y ∧ y.size = l.length ∧
      y.coords l.length = scale • (hessianSum l factors *ᵥ x.coords l.length) :=
  multiplyHessian_of_contributes hl (fun f hf => (h f hf).contributes) scale hx

theorem multiplyHessian_eq {factors : List (LinearFactor K)} {l : Layout} (hl : l.Proper)
    (h : ∀ f ∈ factors, f.Applies l) (scale : K) {x : Vec K} (hx : x.size = l.length) :
    ∃ y, multiplyHessian factors (.ofVec x) l scale = .ok y ∧ y.size = l.length ∧
      y.coords l.length = scale • (hessianSum l factors *ᵥ x.coords l.length) :=
  multiplyHessian_of_applies hl.size_nonneg h scale hx

theorem hessianDiagonal_of_contributes {factors : List (LinearFactor K)} {l : Layout} (hl : l.Proper)
    (h : ∀ f ∈ factors, f.Contributes l) :
    ∃ d, hessianDiagonal factors l = .ok d ∧ d.size = l.length ∧
      d.coords l.length = (hessianSum l factors).diag := by
  obtain ⟨d, hd, hs, hc⟩ := foldlM_add_eq
    (fun f : LinearFactor K => (f.hessianMatrix l.start l.length).diag)
    (Vec.size_zeros l.length) fun f hf d hd => addDiagonal_of_contributes hl (h f hf) hd
  refine ⟨d, ?_, hs, ?_⟩
  · rw [hessianDiagonal, zeros_eq hl.size_nonneg]
    exact hd
  · rw [hc, Vec.coords_zeros, zero_add, hessianSum]
    exact ((map_list_sum (Matrix.diagAddMonoidHom (Fin l.length) K) _).trans
      (by rw [List.map_map]; rfl)).symm

theorem hessianDiagonal_eq {factors : List (LinearFactor K)} {l : Layout} (hl : l.Proper)
    (h : ∀ f ∈ factors, f.Applies l) :
    ∃ d, hessianDiagonal factors l = .ok d ∧ d.size = l.length ∧
      d.coords l.length = (hessianSum l factors).diag :=
  hessianDiagonal_of_contributes hl fun f hf => (h f hf).contributes

theorem gradientAtZero_eq {factors : List (LinearFactor K)} {l : Layout} (hl : l.Proper)
    (h : ∀ f ∈ factors, f.Applies l) :
    ∃ g, gradientAtZero factors l = .ok g ∧ g.size = l.length ∧ g.coords l.length = -rhsSum l factors := by
  obtain ⟨g, hg, hs, hc⟩ := foldlM_add_eq
    (fun f : LinearFactor K => -f.normalRhs l.start l.length) (Vec.size_zeros l.length)
    fun f hf g hg => by
      obtain ⟨g', h', hs', hc'⟩ := addGradient_eq (h f hf) hg
      exact ⟨g', h', hs', hc'.trans (sub_eq_add_neg _ _)⟩
  refine ⟨g, ?_, hs, ?_⟩
  · rw [gradientAtZero, zeros_eq hl.size_nonneg]
    exact hg
  · rw [hc, Vec.coords_zeros, zero_add, rhsSum, List.sum_neg, List.map_map]
    rfl

end Solver
end BundleAdjustment
