import BundleAdjustment.Proofs.Linear.Spans
import BundleAdjustment.Proofs.Linear.Spread

/-!
Products with a factor's matrices, block by block.

Reading every key's block of `x` and adding up the products is the product of the wide matrix
`spread` with `x` (`coords_products`); adding every matrix's transposed product onto the block of
its key is the product with the transpose of `spread` (`coords_addBlocks`).
-/
namespace BundleAdjustment
open Matrix Layout
variable {K : Type} [ExactScalar K]

/-- One vector for each term, added onto the blocks of the keys. -/
def Layout.addBlocks (start : Key → Nat) (value : Key × Mat K → Vec K) (buffer : Vec K)
    (terms : List (Key × Mat K)) : Vec K :=
  terms.foldl (fun y e => addBlock y (start e.1) (value e)) buffer

/-- The products of the terms with the blocks of `x`, added up. -/
def Layout.products (start : Key → Nat) (x e : Vec K) (terms : List (Key × Mat K)) : Vec K :=
  terms.foldl (fun e t => e + t.2.mulVec (block x (start t.1) t.2.cols)) e

theorem Layout.size_addBlocks (start : Key → Nat) (value : Key × Mat K → Vec K) (buffer : Vec K)
    (terms : List (Key × Mat K)) : (addBlocks start value buffer terms).size = buffer.size := by
  induction terms generalizing buffer with
  | nil => rfl
  | cons e rest ih => exact (ih _).trans (size_addBlock _ _ _)

theorem Layout.size_products (start : Key → Nat) (x e : Vec K) (terms : List (Key × Mat K)) :
    (products start x e terms).size = e.size := by
  induction terms generalizing e with
  | nil => rfl
  | cons t rest ih => exact (ih _).trans (Vec.size_add _ _)

/-- At every place the vectors whose blocks it lies in are added. -/
theorem Layout.get_addBlocks (start : Key → Nat) (value : Key × Mat K → Vec K) {buffer : Vec K}
    (terms : List (Key × Mat K)) {c : Nat} (hc : c < buffer.size) :
    (addBlocks start value buffer terms).get c = buffer.get c + (terms.map fun e =>
      if start e.1 ≤ c ∧ c < start e.1 + (value e).size then (value e).get (c - start e.1) else 0).sum := by
  induction terms generalizing buffer with
  | nil => simp [addBlocks]
  | cons e rest ih =>
    have hadd : (addBlock buffer (start e.1) (value e)).get c = buffer.get c +
        if start e.1 ≤ c ∧ c < start e.1 + (value e).size then (value e).get (c - start e.1) else 0 := by
      rw [addBlock, Vec.get_ofFn hc]
      split
      · rfl
      · rw [add_zero]
    rw [List.map_cons, List.sum_cons, ← add_assoc, ← hadd]
    exact ih ((size_addBlock buffer (start e.1) (value e)).symm ▸ hc)

/-- A sum over the places of one block. -/
theorem sum_window {n o m : Nat} (h : o + m ≤ n) (g : Nat → K) :
    ∑ c ∈ Finset.range n, (if o ≤ c ∧ c < o + m then g c else 0) = ∑ j ∈ Finset.range m, g (o + j) := by
  have hwindow : (Finset.range n).filter (fun c => o ≤ c ∧ c < o + m) = Finset.Ico o (o + m) := by
    ext c
    simp only [Finset.mem_filter, Finset.mem_range, Finset.mem_Ico]
    omega
  rw [← Finset.sum_filter, hwindow, Finset.sum_Ico_eq_sum_range, Nat.add_sub_cancel_left]

namespace LinearFactor

/-- Every term's key has as many places as the term has columns. -/
def InLayout (f : LinearFactor K) (l : Layout) : Prop := ∀ e ∈ f.terms.entries, l.Holds e.1 e.2.cols

/-- A term's product with its block of `x`, as a sum over all places. -/
theorem get_mulVec_block {l : Layout} {t : Key × Mat K} (ht : l.Holds t.1 t.2.cols) (x : Vec K) {k : Nat}
    (hk : k < t.2.rows) :
    (t.2.mulVec (block x (l.start t.1) t.2.cols)).get k = ∑ c ∈ Finset.range l.length,
      (if l.start t.1 ≤ c ∧ c < l.start t.1 + t.2.cols then t.2.get k (c - l.start t.1) else 0) *
        x.get c := by
  rw [Mat.get_mulVec hk, Scalar.sum_eq_range]
  simp only [ite_mul, zero_mul]
  rw [sum_window ht.inside]
  refine Finset.sum_congr rfl fun j hj => ?_
  rw [Nat.add_sub_cancel_left, block, Vec.get_ofFn (Finset.mem_range.mp hj)]

/-- A row of the wide matrix takes each block of `x` to its term. -/
theorem spread_mulVec_apply {f : LinearFactor K} {l : Layout} (hf : f.InLayout l) (x : Vec K) (k : Fin f.rows) :
    (f.spread l.start l.length *ᵥ x.coords l.length) k =
      (f.terms.entries.map fun t => (t.2.mulVec (block x (l.start t.1) t.2.cols)).get k).sum := by
  have hsum : ∀ terms : List (Key × Mat K), (∀ t ∈ terms, l.Holds t.1 t.2.cols ∧ t.2.rows = f.rows) →
      ∑ c ∈ Finset.range l.length, spreadAt l.start terms k c * x.get c =
        (terms.map fun t => (t.2.mulVec (block x (l.start t.1) t.2.cols)).get k).sum := by
    intro terms
    induction terms with
    | nil => simp [spreadAt]
    | cons t rest ih =>
      intro h
      obtain ⟨hhold, hrows⟩ := h t (List.mem_cons_self ..)
      rw [List.map_cons, List.sum_cons, ← ih fun u hu => h u (List.mem_cons_of_mem t hu),
        get_mulVec_block hhold x (hrows.symm ▸ k.isLt)]
      simp only [spreadAt_cons, add_mul, Finset.sum_add_distrib]
  rw [← hsum f.terms.entries fun t ht => ⟨hf t ht, f.rows_eq t ht⟩, Finset.sum_range]
  rfl

theorem get_products {l : Layout} (x : Vec K) {terms : List (Key × Mat K)} {e : Vec K} {k : Nat}
    (hk : k < e.size) (h : ∀ t ∈ terms, l.Holds t.1 t.2.cols ∧ t.2.rows = e.size) :
    (products l.start x e terms).get k =
      e.get k + ∑ c ∈ Finset.range l.length, spreadAt l.start terms k c * x.get c := by
  induction terms generalizing e with
  | nil => simp [products, spreadAt]
  | cons t rest ih =>
    obtain ⟨hhold, hrows⟩ := h t (List.mem_cons_self ..)
    have hsize := Vec.size_add e (t.2.mulVec (block x (l.start t.1) t.2.cols))
    have hrest := ih (hsize.symm ▸ hk) fun u hu => by
      obtain ⟨hu, hr⟩ := h u (List.mem_cons_of_mem t hu)
      exact ⟨hu, hr.trans hsize.symm⟩
    simp only [spreadAt_cons, add_mul, Finset.sum_add_distrib]
    rw [← get_mulVec_block hhold x (hrows ▸ hk), ← add_assoc, ← Vec.get_add hk]
    exact hrest

theorem coords_products {f : LinearFactor K} {l : Layout} (hf : f.InLayout l) (x : Vec K) {e : Vec K}
    (he : e.size = f.rows) :
    (products l.start x e f.terms.entries).coords f.rows =
      e.coords f.rows + f.spread l.start l.length *ᵥ x.coords l.length := by
  funext k
  have hk : (k : Nat) < e.size := he.symm ▸ k.isLt
  have hget := get_products x hk fun t ht => ⟨hf t ht, (f.rows_eq t ht).trans he.symm⟩
  rw [Finset.sum_range] at hget
  exact hget

/-- What the transposed products add at one place. -/
theorem sum_get_transposeMulVec (start : Key → Nat) (u : Vec K) {terms : List (Key × Mat K)} {m : Nat}
    (h : ∀ t ∈ terms, t.2.rows = m) (c : Nat) :
    (terms.map fun e => if start e.1 ≤ c ∧ c < start e.1 + (e.2.transposeMulVec u).size then
      (e.2.transposeMulVec u).get (c - start e.1) else 0).sum =
      ∑ k ∈ Finset.range m, spreadAt start terms k c * u.get k := by
  induction terms with
  | nil => simp [spreadAt]
  | cons t rest ih =>
    rw [List.map_cons, List.sum_cons, ih fun v hv => h v (List.mem_cons_of_mem t hv)]
    simp only [spreadAt_cons, add_mul, Finset.sum_add_distrib, Mat.size_transposeMulVec]
    congr 1
    by_cases hc : start t.1 ≤ c ∧ c < start t.1 + t.2.cols
    · have hj : c - start t.1 < t.2.cols := by omega
      simp only [if_pos hc]
      rw [Mat.get_transposeMulVec hj, Scalar.sum_eq_range, h t (List.mem_cons_self ..)]
    · simp only [if_neg hc, zero_mul, Finset.sum_const_zero]

theorem coords_addBlocks {f : LinearFactor K} {l : Layout} (u : Vec K) {y : Vec K}
    (hy : y.size = l.length) :
    (addBlocks l.start (fun e => e.2.transposeMulVec u) y f.terms.entries).coords l.length =
      y.coords l.length + (f.spread l.start l.length)ᵀ *ᵥ u.coords f.rows := by
  funext c
  have hc := sum_get_transposeMulVec l.start u (fun t ht => f.rows_eq t ht) c
  rw [Finset.sum_range] at hc
  rw [Vec.coords_apply, get_addBlocks l.start _ _ (hy.symm ▸ c.isLt), hc]
  rfl

end LinearFactor
end BundleAdjustment
