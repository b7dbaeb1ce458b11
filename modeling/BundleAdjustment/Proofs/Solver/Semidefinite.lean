import BundleAdjustment.Proofs.Solver.Curvature
import BundleAdjustment.Proofs.Solver.MatrixFree

/-!
The Hessian as an operator on vectors.

The product with the Hessian is a loop over factors that reads blocks, whitens twice and adds blocks,
with a path of its own for factors of one width; the diagonal is another loop, which whitens once. Both
are those of one matrix, so the product is linear and symmetric, it never curves down, and the diagonal
is its own (`multiplyHessian_semidefinite`). What a vector costs is the squared length of what each
factor makes of it, whitened once (`whitenedProduct`).
-/
namespace BundleAdjustment
open Matrix Layout
variable {K : Type} [ExactScalar K]

namespace Vec

/-- The vector that is one at a place and zero at every other. -/
def basis (n i : Nat) : Vec K := ofFn n fun j => if j = i then 1 else 0

theorem size_basis (n i : Nat) : (basis n i : Vec K).size = n := size_ofFn n _

theorem coords_basis {n : Nat} (i : Fin n) : (basis n i : Vec K).coords n = Pi.single i 1 := by
  rw [basis, coords_ofFn]
  funext j
  rw [Pi.single_apply]
  simp only [Fin.ext_iff]

theorem dot_self_eq_zero (v : Vec K) : v.dot v = 0 ↔ v = zeros v.size := by
  rw [dot_eq rfl, dotProduct_self_eq_zero, ← coords_zeros]
  exact ⟨fun h => eq_of_coords rfl (size_zeros _) h, fun h => congrArg (coords v.size) h⟩

end Vec

namespace LinearFactor

/-- The product `W A v` with the blocks of `v`. -/
def whitenedImage (f : LinearFactor K) (start : Key → Nat) (v : Vec K) : Vec K :=
  f.scaling.vec (f.image start v)

theorem coords_whitenedImage {f : LinearFactor K} {l : Layout} (hf : f.InLayout l)
    (hinto : f.scaling.Into f.rows) (v : Vec K) :
    (f.whitenedImage l.start v).coords f.scaling.size = f.slope l.start (v.coords l.length) := by
  rw [whitenedImage, RowScaling.coords_vec hinto, image, coords_products hf v (Vec.size_zeros _),
    Vec.coords_zeros, zero_add]
  rfl

theorem dot_whitenedImage {f : LinearFactor K} {l : Layout} (hf : f.InLayout l)
    (hinto : f.scaling.Into f.rows) (v : Vec K) :
    (f.whitenedImage l.start v).dot (f.whitenedImage l.start v) =
      f.slope l.start (v.coords l.length) ⬝ᵥ f.slope l.start (v.coords l.length) := by
  have hsize : (f.whitenedImage l.start v).size = f.scaling.size := Vec.size_ofFn _ _
  rw [Vec.dot_eq hsize, coords_whitenedImage hf hinto]

end LinearFactor

namespace Solver
open LinearFactor

/-- What a factor makes of its blocks of a buffer: their products added up, and whitened once. -/
def whitenedProduct (l : Layout) (v : Vec K) (f : LinearFactor K) : Except Fault (Vec K) := do
  let x ← gatherAll l (.ofVec v) f.keys
  let e ← addProducts x (.ofVec (Vec.zeros f.rows)) f.terms.entries
  (← whitenTensor f.model e).toVec

theorem whitenedProduct_eq {f : LinearFactor K} {l : Layout} (h : f.Contributes l) {v : Vec K}
    (hv : v.size = l.length) :
    whitenedProduct l v f = .ok (f.whitenedImage l.start v) ∧ f.scaling.Into f.rows := by
  obtain ⟨x, hx, hfound, -⟩ := foldlM_gather_eq Table.empty hv h.inLayout f.terms.distinct
  have hx : gatherAll l (.ofVec v) f.keys = .ok x := hx
  have hproducts : addProducts x (.ofVec (Vec.zeros f.rows)) f.terms.entries = .ok (.ofVec (f.image l.start v)) :=
    addProducts_of_supplies (supplies_of_found hfound) fun e he => (f.rows_eq e he).trans (Vec.size_zeros _).symm
  have hsize := size_image f l.start v
  obtain ⟨u, hu, -⟩ := whitenVec_of_suits hsize f.model_rows h.suits
  obtain ⟨rfl, hinto⟩ := whitenVec_eq (hsize.symm ▸ f.model_rows) hu
  rw [hsize] at hu hinto
  refine ⟨?_, hinto⟩
  rw [whitenedProduct, hx, ok_bind, hproducts]
  exact hu

/-- `H` is the product with the Hessian of factors and `d` its diagonal, on the buffers of a layout. The
product is linear and symmetric, and along a vector it curves up unless each factor makes zero of it. -/
structure Semidefinite (factors : List (LinearFactor K)) (l : Layout) (H : Vec K → Vec K) (d : Vec K) : Prop where
  product : ∀ v, v.size = l.length →
    multiplyHessian factors (.ofVec v) l 1 = .ok (H v) ∧ (H v).size = l.length
  diagonal : hessianDiagonal factors l = .ok d ∧ d.size = l.length
  linear : ∀ (a c : K) (u v : Vec K), u.size = l.length → v.size = l.length →
    H (u.scale a + v.scale c) = (H u).scale a + (H v).scale c
  symmetric : ∀ u v : Vec K, u.size = l.length → v.size = l.length → u.dot (H v) = (H u).dot v
  curvature : ∀ v : Vec K, v.size = l.length → ∃ ws, factors.mapM (whitenedProduct l v) = .ok ws ∧
    v.dot (H v) = (ws.map fun w => w.dot w).sum ∧ 0 ≤ v.dot (H v) ∧
      (v.dot (H v) = 0 ↔ ∀ w ∈ ws, w = Vec.zeros w.size)
  get_diagonal : ∀ i, i < l.length → (Vec.basis l.length i).dot (H (Vec.basis l.length i)) = d.get i

section Coordinates
variable {factors : List (LinearFactor K)} {l : Layout} {H : Vec K → Vec K}
  (hsize : ∀ v : Vec K, v.size = l.length → (H v).size = l.length)
  (hH : ∀ v : Vec K, v.size = l.length → (H v).coords l.length = hessianSum l factors *ᵥ v.coords l.length)
include hH

theorem dot_hessian {u v : Vec K} (hu : u.size = l.length) (hv : v.size = l.length) :
    u.dot (H v) = u.coords l.length ⬝ᵥ hessianSum l factors *ᵥ v.coords l.length := by
  rw [Vec.dot_eq hu, hH v hv]

/-- Along a vector the squared lengths are added up. -/
theorem curvature_of_contributes (h : ∀ f ∈ factors, f.Contributes l) {v : Vec K} (hv : v.size = l.length) :
    ∃ ws, factors.mapM (whitenedProduct l v) = .ok ws ∧ v.dot (H v) = (ws.map fun w => w.dot w).sum := by
  refine ⟨factors.map fun f => f.whitenedImage l.start v, mapM_eq_ok.mpr ?_, ?_⟩
  · rw [List.map_map]
    exact List.map_congr_left fun f hf => (whitenedProduct_eq (h f hf) hv).1
  · rw [dot_hessian hH hv hv, curvature_hessianSum, List.map_map]
    refine congrArg List.sum (List.map_congr_left fun f hf => ?_)
    exact (dot_whitenedImage (h f hf).inLayout (whitenedProduct_eq (h f hf) hv).2 v).symm

include hsize

theorem linear_of_coords (a c : K) {u v : Vec K} (hu : u.size = l.length) (hv : v.size = l.length) :
    H (u.scale a + v.scale c) = (H u).scale a + (H v).scale c := by
  have hus : (u.scale a).size = l.length := (Vec.size_scale a u).trans hu
  have hsum : (u.scale a + v.scale c).size = l.length := (Vec.size_add _ _).trans hus
  have hHu : ((H u).scale a).size = l.length := (Vec.size_scale a _).trans (hsize u hu)
  refine Vec.eq_of_coords (hsize _ hsum) ((Vec.size_add _ _).trans hHu) ?_
  calc
    (H (u.scale a + v.scale c)).coords l.length =
        hessianSum l factors *ᵥ (a • u.coords l.length + c • v.coords l.length) := by
      rw [hH _ hsum, Vec.coords_add hus, Vec.coords_scale a hu, Vec.coords_scale c hv]
    _ = a • (H u).coords l.length + c • (H v).coords l.length := by
      rw [mulVec_add, mulVec_smul, mulVec_smul, hH u hu, hH v hv]
    _ = ((H u).scale a + (H v).scale c).coords l.length := by
      rw [Vec.coords_add hHu, Vec.coords_scale a (hsize u hu), Vec.coords_scale c (hsize v hv)]

theorem symmetric_of_coords {u v : Vec K} (hu : u.size = l.length) (hv : v.size = l.length) :
    u.dot (H v) = (H u).dot v := by
  rw [dot_hessian hH hu hv, Vec.dot_eq (hsize u hu), hH u hu, dotProduct_mulVec, ← mulVec_transpose,
    hessianSum_symm]

end Coordinates

/-- Squared lengths add up to zero only if each of them is zero. -/
theorem sum_squares_eq_zero (ws : List (Vec K)) :
    (ws.map fun w => w.dot w).sum = 0 ↔ ∀ w ∈ ws, w = Vec.zeros w.size := by
  have hnonneg : ∀ a ∈ ws.map fun w => w.dot w, 0 ≤ a := by
    intro a ha
    obtain ⟨w, -, rfl⟩ := List.mem_map.mp ha
    exact w.dot_self_nonneg
  constructor
  · intro h w hw
    exact w.dot_self_eq_zero.mp
      (List.all_zero_of_le_zero_le_of_sum_eq_zero hnonneg h (List.mem_map_of_mem hw))
  · intro h
    refine List.sum_eq_zero fun a ha => ?_
    obtain ⟨w, hw, rfl⟩ := List.mem_map.mp ha
    exact w.dot_self_eq_zero.mpr (h w hw)

/-- A function that is the product with the Hessian, and the matrix in coordinates. -/
theorem exists_product {factors : List (LinearFactor K)} {l : Layout} (hl : 0 ≤ l.size)
    (h : ∀ f ∈ factors, f.Contributes l) :
    ∃ H : Vec K → Vec K, ∀ v, v.size = l.length → multiplyHessian factors (.ofVec v) l 1 = .ok (H v) ∧
      (H v).size = l.length ∧ (H v).coords l.length = hessianSum l factors *ᵥ v.coords l.length := by
  refine ⟨fun v => (multiplyHessian factors (.ofVec v) l 1).toOption.getD v, fun v hv => ?_⟩
  obtain ⟨y, hy, hsize, hcoords⟩ := multiplyHessian_of_contributes hl h 1 hv
  rw [one_smul] at hcoords
  dsimp only
  rw [hy]
  exact ⟨rfl, hsize, hcoords⟩

/-- **The product with the Hessian is linear, symmetric and positive semidefinite, with the reported
diagonal**, on a proper layout that holds every key with the width of its matrices, if each row has one
deviation. A factor of one row without keys may have any number of them. -/
theorem multiplyHessian_semidefinite {factors : List (LinearFactor K)} {l : Layout} (hl : l.Proper)
    (hkeys : ∀ f ∈ factors, ∀ e ∈ f.terms.entries, ∃ o, l.span e.1 = .ok (o, (e.2.cols : Int)))
    (hrows : ∀ f ∈ factors, OnePerRow f.model f.rows ∨ f.isEmpty = true ∧ f.rows = 1) :
    ∃ (H : Vec K → Vec K) (d : Vec K), Semidefinite factors l H d := by
  have hcontrib : ∀ f ∈ factors, f.Contributes l := by
    intro f hf
    refine ⟨fun e he => ?_, hrows f hf⟩
    obtain ⟨o, ho⟩ := hkeys f hf e he
    exact hl.holds ho
  obtain ⟨H, hH⟩ := exists_product hl.size_nonneg hcontrib
  obtain ⟨d, hd, hdsize, hdiag⟩ := hessianDiagonal_of_contributes hl hcontrib
  have hsize : ∀ v : Vec K, v.size = l.length → (H v).size = l.length := fun v hv => (hH v hv).2.1
  have hcoords : ∀ v : Vec K, v.size = l.length →
      (H v).coords l.length = hessianSum l factors *ᵥ v.coords l.length := fun v hv => (hH v hv).2.2
  refine ⟨H, d, ?_⟩
  exact {
    product := fun v hv => ⟨(hH v hv).1, hsize v hv⟩
    diagonal := ⟨hd, hdsize⟩
    linear := fun a c _ _ hu hv => linear_of_coords hsize hcoords a c hu hv
    symmetric := fun _ _ hu hv => symmetric_of_coords hsize hcoords hu hv
    curvature := by
      intro v hv
      obtain ⟨ws, hws, hsum⟩ := curvature_of_contributes hcoords hcontrib hv
      refine ⟨ws, hws, hsum, ?_, ?_⟩
      · rw [dot_hessian hcoords hv hv]
        exact curvature_nonneg l factors _
      · rw [hsum]
        exact sum_squares_eq_zero ws
    get_diagonal := by
      intro i hi
      have hb := Vec.size_basis (K := K) l.length i
      rw [dot_hessian hcoords hb hb, Vec.coords_basis ⟨i, hi⟩, single_one_dotProduct, mulVec_single_one]
      exact (congrFun hdiag ⟨i, hi⟩).symm }

open BlockMatrix

theorem multiplyHessian_semidefinite_tiltedPair :
    ∃ l : Layout, Layout.ofOffsets [.whole 0, .whole 2, .whole 3] = .ok l ∧ l.Proper ∧
      (∀ f ∈ [tiltedPair ℚ], OnePerRow f.model f.rows) ∧
      ∃ (H : Vec ℚ → Vec ℚ) (d : Vec ℚ), Semidefinite [tiltedPair ℚ] l H d := by
  obtain ⟨l, hl, hproper, -, hkeys⟩ := spans_tiltedPair (K := ℚ)
  exact ⟨l, hl, hproper, onePerRow_tiltedPair,
    multiplyHessian_semidefinite hproper hkeys fun f hf => .inl (onePerRow_tiltedPair f hf)⟩

/-- A row that is weighed twice has two rows when it should be weighed again. -/
theorem multiplyHessian_twoDeviations :
    ∃ l : Layout, Layout.ofWidths [.number 0] [.whole 1] = .ok l ∧ l.Proper ∧
      (∀ e ∈ (twoDeviations ℚ).terms.entries, l.span e.1 = .ok (0, (e.2.cols : Int))) ∧
      multiplyHessian [twoDeviations ℚ] (.ofVec ⟨#[1]⟩) l 1 = .error (.whitenRows 1 [2]) :=
  ⟨oneUnknown, ofWidths_oneUnknown, proper_oneUnknown, spans_twoDeviations, rfl⟩

end Solver
end BundleAdjustment
