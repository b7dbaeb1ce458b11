import BundleAdjustment.Proofs.Linear.Acceptance
import BundleAdjustment.Proofs.Linear.Products
import BundleAdjustment.Proofs.Linear.Quadratic
import BundleAdjustment.Proofs.Linear.Remaining

/-!
Folding the noise into a factor.

Whitening makes a factor whose matrices and right-hand side are scaled already, and whose model only
marks the hard constraints. Every operation finds another model than before, and another system, yet
none of them tells the two factors apart, be it by a result or by a fault (`SameMeaning`). What remains
of a model scales by one (`isIdentity_remainingModel`), so an operation that whitens once reads the
scaled system off. One that whitens twice finds the second scaling in the transposed matrices
(`transposeMulVec_mat`). All this needs one deviation for each row, and cannot do without
(`whiten_preserves_iff`).
-/
namespace BundleAdjustment
variable {K : Type} [ExactScalar K]

namespace LinearFactor

omit [ExactScalar K] in
theorem withTerms_eq_ok {f g : LinearFactor K} {terms : Table Key (Mat K)} {rhs : Vec K}
    {model : Option (Noise K)} (h : f.withTerms terms rhs model = .ok g) :
    g.kind = f.kind ∧ g.terms = terms ∧ g.rhs = rhs ∧ g.model = model := by
  unfold withTerms at h
  split at h
  · obtain ⟨hterms, hrhs, hmodel⟩ := parts_of_ofTerms h
    refine ⟨?_, hterms, hrhs, hmodel⟩
    unfold ofTerms at h
    split at h
    · rw [ok_bind] at h
      split at h
      · cases h
        rfl
      · cases h
    · cases h
  · cases h

/-- Whitening keeps the kind and leaves what remains of the model. -/
theorem parts_of_whiten {f g : LinearFactor K} (h : f.whiten = .ok g) :
    g.kind = f.kind ∧ g.model = remainingModel f.model := by
  obtain ⟨s, -, hg⟩ := bind_eq_ok.mp h
  obtain ⟨hkind, -, -, hmodel⟩ := withTerms_eq_ok hg
  exact ⟨hkind, hmodel⟩

/-- With one deviation for each row, scaling a matrix is scaling what its transpose is applied to. -/
theorem transposeMulVec_mat {f : LinearFactor K} (hone : OnePerRow f.model f.rows) {A : Mat K}
    (hA : A.rows = f.rows) (u : Vec K) :
    (f.scaling.mat A).transposeMulVec u = A.transposeMulVec (f.scaling.vec u) := by
  have hsize : f.scaling.size = A.rows := (size_scaling hone).trans hA.symm
  refine Vec.ofFn_congr fun j hj => ?_
  show Scalar.sum f.scaling.size _ = _
  rw [hsize]
  refine Scalar.sum_congr fun k hk => ?_
  rw [get_mat_scaling hone A (hA ▸ hk) hj, get_vec_scaling hone u (hA ▸ hk)]
  ring

/-- `g` is `f` with its weighting folded in, and there is one deviation for each row. -/
structure Folded (f g : LinearFactor K) : Prop where
  onePerRow : OnePerRow f.model f.rows
  whitened : f.whiten = .ok g

/-- A factor whose model scales by one is whitened as it stands. -/
theorem whitenedSystem_of_isIdentity {g : LinearFactor K} (hone : OnePerRow g.model g.rows)
    (hid : g.scaling.IsIdentity g.rows) : g.whitenedSystem = .ok (g.terms, g.rhs) := by
  obtain ⟨t, hsystem, ht⟩ := whitenedSystem_of_onePerRow hone
  rw [hsystem, Table.eq_of_entries (ht.trans (map_scaling_of_isIdentity hid)), hid.vec_eq]

namespace Folded
variable {f g : LinearFactor K} (h : f.Folded g)
include h

theorem kind : g.kind = f.kind := (parts_of_whiten h.whitened).1

theorem model : g.model = remainingModel f.model := (parts_of_whiten h.whitened).2

theorem terms : g.terms.entries = f.terms.entries.map fun e => (e.1, f.scaling.mat e.2) :=
  (whitenedTo_of_whiten h.whitened).terms

theorem rhs : g.rhs = f.scaling.vec f.rhs := (whitenedTo_of_whiten h.whitened).rhs

theorem into : f.scaling.Into f.rows := into_of_onePerRow h.onePerRow

theorem rows : g.rows = f.rows := by
  rw [LinearFactor.rows, h.rhs, size_vec_scaling h.onePerRow]

theorem keys : g.keys = f.keys := keys_of_whiten h.whitened

theorem isEmpty : g.isEmpty = f.isEmpty := isEmpty_eq_of_keys h.keys

theorem blocks : g.blocks = f.blocks.map f.scaling.mat := by
  rw [LinearFactor.blocks, LinearFactor.blocks, h.terms, List.map_map, List.map_map]
  rfl

theorem onePerRow_self : OnePerRow g.model g.rows := by
  rw [h.rows, h.model]
  exact onePerRow_remainingModel h.onePerRow

theorem isIdentity : g.scaling.IsIdentity g.rows := by
  rw [LinearFactor.scaling, h.rows, h.model]
  exact isIdentity_remainingModel h.onePerRow

theorem whitenTensor_self {v : Vec K} (hv : v.size = f.rows) : whitenTensor g.model (.ofVec v) = .ok (.ofVec v) := by
  have hv : v.size = g.rows := hv.trans h.rows.symm
  have hid : g.scaling.IsIdentity v.size := hv.symm ▸ h.isIdentity
  rw [whitenTensor_of_onePerRow h.onePerRow_self hv, hid.vec_eq]

theorem whitenTwice_self {v : Vec K} (hv : v.size = f.rows) : whitenTwice g.model v = .ok v := by
  have hv : v.size = g.rows := hv.trans h.rows.symm
  have hid : g.scaling.IsIdentity v.size := hv.symm ▸ h.isIdentity
  rw [whitenTwice_of_onePerRow h.onePerRow_self hv, hid.vec_eq, hid.vec_eq]

/-- There is nothing left to fold in. -/
theorem whiten_self : g.whiten = .ok g := by
  have hmodel : remainingModel g.model = g.model := by rw [h.model, remainingModel_remainingModel]
  rw [LinearFactor.whiten, whitenedSystem_of_isIdentity h.onePerRow_self h.isIdentity]
  show g.withTerms g.terms g.rhs (remainingModel g.model) = _
  rw [hmodel, withTerms, dif_pos g.rows_eq, ofTerms, dif_pos g.model_rows, ok_bind, dif_pos g.fits]
  rfl

/-! ### What is read off the whitened system -/

theorem whitenedSystem : g.whitenedSystem = f.whitenedSystem := by
  obtain ⟨t, hsystem, ht⟩ := whitenedSystem_of_onePerRow h.onePerRow
  rw [whitenedSystem_of_isIdentity h.onePerRow_self h.isIdentity, hsystem, h.rhs,
    Table.eq_of_entries (h.terms.trans ht.symm)]

theorem jacobian : g.jacobian = f.jacobian := by
  rw [LinearFactor.jacobian, LinearFactor.jacobian, h.whitenedSystem, h.isEmpty, h.rows]

theorem hessianDiagonal : g.hessianDiagonal = f.hessianDiagonal := by
  rw [LinearFactor.hessianDiagonal, LinearFactor.hessianDiagonal, h.whitenedSystem]

theorem hessianBlockDiagonal : g.hessianBlockDiagonal = f.hessianBlockDiagonal := by
  rw [LinearFactor.hessianBlockDiagonal, LinearFactor.hessianBlockDiagonal, h.whitenedSystem]

theorem hessianDiagonalFlat (width : Int) (layout : Option Layout) (d : Tensor K) :
    g.hessianDiagonalFlat width layout d = f.hessianDiagonalFlat width layout d := by
  rw [LinearFactor.hessianDiagonalFlat, LinearFactor.hessianDiagonalFlat, h.whitenedSystem, h.isEmpty, h.keys]

/-! ### What is whitened on the way -/

theorem gradientAtZero : g.gradientAtZero = f.gradientAtZero := by
  have hsize : (f.scaling.vec f.rhs).size = f.rows := size_vec_scaling h.onePerRow f.rhs
  rw [LinearFactor.gradientAtZero, LinearFactor.gradientAtZero, whitenTwice_of_onePerRow h.onePerRow rfl, h.rhs,
    h.whitenTwice_self hsize]
  refine congrArg Except.ok (Table.eq_of_entries ?_)
  simp only [Table.mapValues, h.terms, List.map_map]
  refine List.map_congr_left fun e he => ?_
  exact congrArg (fun v => (e.1, -v)) (transposeMulVec_mat h.onePerRow (f.rows_eq e he) _)

/-- The sum of the products, scaled once. -/
theorem addProducts_of_oneAxis {x : Container K} (hx : OneAxis x f.keys) {e : Vec K} (he : e.size = f.rows) :
    addProducts x (.ofVec e) f.terms.entries = Tensor.ofVec <$> addParts (partsAt x f.terms.entries) e ∧
      addProducts x (.ofVec (f.scaling.vec e)) g.terms.entries =
        Tensor.ofVec <$> f.scaling.vec <$> addParts (partsAt x f.terms.entries) e := by
  have hrows : ∀ t ∈ f.terms.entries, t.2.rows = f.rows := fun t ht => f.rows_eq t ht
  have hrows' : ∀ t ∈ g.terms.entries, t.2.rows = (f.scaling.vec e).size := fun t ht =>
    (g.rows_eq t ht).trans (h.rows.trans (size_vec_scaling h.onePerRow e).symm)
  refine ⟨addProducts_eq hx fun t ht => (hrows t ht).trans he.symm, ?_⟩
  have hx' : OneAxis x g.keys := h.keys.symm ▸ hx
  rw [addProducts_eq hx' hrows']
  have hparts : partsAt x g.terms.entries =
      (partsAt x f.terms.entries).map fun p => (p.1, f.scaling.mat p.2) := by
    rw [partsAt, partsAt, h.terms, List.map_map, List.map_map]
    rfl
  rw [hparts, addParts_mat h.into ?_ he]
  intro p hp
  obtain ⟨t, ht, rfl⟩ := List.mem_map.mp hp
  exact hrows t ht

theorem errorVector {x : Container K} (hx : OneAxis x f.keys) : g.errorVector x = f.errorVector x := by
  have hneg : -g.rhs = f.scaling.vec (-f.rhs) := by rw [h.rhs, RowScaling.vec_neg _ h.into]
  obtain ⟨hf, hg⟩ := h.addProducts_of_oneAxis hx (Vec.size_neg f.rhs)
  rw [LinearFactor.errorVector, LinearFactor.errorVector, hneg, hf, hg]
  cases hr : addParts (partsAt x f.terms.entries) (-f.rhs) with
  | error fault => rfl
  | ok v =>
    have hv : v.size = f.rows := (size_addParts hr).trans (Vec.size_neg f.rhs)
    show whitenTensor g.model (.ofVec (f.scaling.vec v)) = whitenTensor f.model (.ofVec v)
    rw [h.whitenTensor_self (size_vec_scaling h.onePerRow v), whitenTensor_of_onePerRow h.onePerRow hv]

theorem error {x : Container K} (hx : OneAxis x f.keys) : g.error x = f.error x := by
  rw [LinearFactor.error, LinearFactor.error, h.errorVector hx]

/-- The transposed scaled matrices scale once more what they are applied to. -/
theorem addTransposed {u : Vec K} (hu : u.size = f.rows) (y : Container K) :
    addTransposed (.ofVec u) y g.terms.entries = addTransposed (.ofVec (f.scaling.vec u)) y f.terms.entries := by
  have hmul : ∀ t ∈ f.terms.entries, (Tensor.ofMat (f.scaling.mat t.2).transpose).matmul (.ofVec u) =
      (Tensor.ofMat t.2.transpose).matmul (.ofVec (f.scaling.vec u)) := by
    intro t ht
    have ht : t.2.rows = f.rows := f.rows_eq t ht
    rw [matmul_transpose ((size_scaling h.onePerRow).trans hu.symm),
      matmul_transpose (ht.trans (size_vec_scaling h.onePerRow u).symm), transposeMulVec_mat h.onePerRow ht]
  rw [LinearFactor.addTransposed, LinearFactor.addTransposed, h.terms]
  refine foldlM_map_congr (fun z t ht => ?_) y
  rw [hmul t ht]

theorem multiplyHessianAdd {x : Container K} (hx : OneAxis x f.keys) (scale : K) (y : Container K) :
    g.multiplyHessianAdd scale x y = f.multiplyHessianAdd scale x y := by
  cases hne : f.isEmpty with
  | true =>
    rw [LinearFactor.multiplyHessianAdd, LinearFactor.multiplyHessianAdd, h.isEmpty, hne, if_pos rfl, if_pos rfl]
  | false =>
    obtain ⟨hf, hg⟩ := h.addProducts_of_oneAxis hx (Vec.size_zeros f.rows)
    have hzeros : f.scaling.vec (Vec.zeros f.rows) = Vec.zeros g.rows := by
      rw [RowScaling.vec_zeros, scaling, size_scaling h.onePerRow, h.rows]
    rw [hzeros] at hg
    rw [multiplyHessianAdd_of_products hf hne, multiplyHessianAdd_of_products hg (h.isEmpty.trans hne)]
    cases hr : addParts (partsAt x f.terms.entries) (Vec.zeros f.rows) with
    | error fault => rfl
    | ok v =>
      have hv : v.size = f.rows := (size_addParts hr).trans (Vec.size_zeros _)
      have hsize := size_vec_scaling h.onePerRow v
      show (whitenTwice g.model (f.scaling.vec v) >>= _) = (whitenTwice f.model v >>= _)
      rw [h.whitenTwice_self hsize, whitenTwice_of_onePerRow h.onePerRow hv, ok_bind, ok_bind,
        h.addTransposed ((Vec.size_scale _ _).trans hsize), RowScaling.vec_scale (hsize.symm ▸ h.into)]

theorem zip_blocks (spans : List (Int × Int)) :
    spans.zip g.blocks = (spans.zip f.blocks).map fun p => (p.1, f.scaling.mat p.2) := by
  rw [h.blocks, List.zip_map_right]
  rfl

theorem addParts_partsOn (x : Vec K) (spans : List (Int × Int)) {e : Vec K} (he : e.size = f.rows) :
    addParts (partsOn x (spans.zip g.blocks)) (f.scaling.vec e) =
      f.scaling.vec <$> addParts (partsOn x (spans.zip f.blocks)) e := by
  have hparts : partsOn x (spans.zip g.blocks) =
      (partsOn x (spans.zip f.blocks)).map fun p => (p.1, f.scaling.mat p.2) := by
    rw [partsOn, partsOn, h.zip_blocks, List.map_map, List.map_map]
    rfl
  rw [hparts]
  refine addParts_mat h.into (fun p hp => ?_) he
  obtain ⟨q, hq, rfl⟩ := List.mem_map.mp hp
  exact rows_of_mem_zip q hq

theorem foldlM_addSpan (u y : Vec K) (spans : List (Int × Int)) :
    (spans.zip g.blocks).foldlM (fun y p => Layout.addSpan y p.1 (p.2.transposeMulVec u)) y =
      (spans.zip f.blocks).foldlM (fun y p => Layout.addSpan y p.1 (p.2.transposeMulVec (f.scaling.vec u))) y := by
  rw [h.zip_blocks]
  refine foldlM_map_congr (fun z p hp => ?_) y
  rw [transposeMulVec_mat h.onePerRow (rows_of_mem_zip p hp)]

theorem multiplyHessianAddFlat (width : Int) (layout : Option Layout) (scale : K) (x y : Tensor K) :
    g.multiplyHessianAddFlat width layout scale x y = f.multiplyHessianAddFlat width layout scale x y := by
  rw [LinearFactor.multiplyHessianAddFlat, LinearFactor.multiplyHessianAddFlat, h.isEmpty, h.keys, h.rows]
  cases f.isEmpty with
  | true => rfl
  | false =>
    refine bind_congr fun xSpans => bind_congr fun ySpans => ?_
    have hzeros : f.scaling.vec (Vec.zeros f.rows) = Vec.zeros f.rows := by
      rw [RowScaling.vec_zeros, scaling, size_scaling h.onePerRow]
    have hg := h.addParts_partsOn x.flatten xSpans (Vec.size_zeros f.rows)
    rw [hzeros] at hg
    rw [foldlM_product, foldlM_product, hg]
    cases hr : addParts (partsOn x.flatten (xSpans.zip f.blocks)) (Vec.zeros f.rows) with
    | error fault => rfl
    | ok v =>
      have hv : v.size = f.rows := (size_addParts hr).trans (Vec.size_zeros _)
      have hsize := size_vec_scaling h.onePerRow v
      have hadd := h.foldlM_addSpan ((f.scaling.vec v).scale scale) y.flatten ySpans
      rw [RowScaling.vec_scale (hsize.symm ▸ h.into)] at hadd
      show (whitenTwice g.model (f.scaling.vec v) >>= _) = (whitenTwice f.model v >>= _)
      rw [h.whitenTwice_self hsize, whitenTwice_of_onePerRow h.onePerRow hv, ok_bind, ok_bind]
      exact congrArg (fun r => r >>= fun z => .ok (Tensor.ofVec z)) hadd

/-! ### What is added to a matrix -/

/-- A model that scales by one leaves the factor as it is, but for the model. -/
theorem plainWrites_of_isIdentity (hid : f.scaling.IsIdentity f.rows) (slots : SlotTable) (M : BlockMatrix K) :
    g.plainWrites slots M = f.plainWrites slots M := by
  have hterms : g.terms = f.terms := Table.eq_of_entries (h.terms.trans (map_scaling_of_isIdentity hid))
  have hrhs : g.rhs = f.rhs := h.rhs.trans hid.vec_eq
  simp only [plainWrites, LinearFactor.keys, LinearFactor.widths, LinearFactor.blocks, hterms, hrhs, h.kind]

/-- Hard constraints are refused before and after, and without any the factor writes what it is whitened to. -/
theorem writes (slots : SlotTable) (M : BlockMatrix K) :
    g.writes slots M = f.writes slots M := by
  cases hne : f.isEmpty with
  | true => rw [LinearFactor.writes, LinearFactor.writes, h.isEmpty, hne, if_pos rfl, if_pos rfl]
  | false =>
    have hne' : g.isEmpty = false := h.isEmpty.trans hne
    obtain ⟨hfree, hnone⟩ | ⟨m, hm, hc, hsome⟩ := remainingModel_cases f.model
    · have hplain : g.writes slots M = g.plainWrites slots M := by
        rw [LinearFactor.writes, hne', h.model, hnone]
        rfl
      rw [hplain]
      cases hneeds : Noise.needsWhitening f.model with
      | false =>
        rw [h.plainWrites_of_isIdentity (isIdentity_scaling f.model_rows hneeds), LinearFactor.writes, hne, hneeds]
        rfl
      | true =>
        rw [LinearFactor.writes, hne, hneeds, hfree, h.whitened]
        rfl
    · rw [writes_of_constrained slots M hne hm hc, writes_of_constrained slots M hne' (h.model.trans hsome)
        (Noise.isConstrained_unweighted hc), h.kind]

theorem addTo (slots : SlotTable) (M : BlockMatrix K) : g.addTo slots M = f.addTo slots M := by
  rw [LinearFactor.addTo, LinearFactor.addTo, h.writes]

end Folded

/-- No operation tells two factors apart, by a result or by a fault. -/
structure SameMeaning (f g : LinearFactor K) : Prop where
  whitenedSystem : g.whitenedSystem = f.whitenedSystem
  jacobian : g.jacobian = f.jacobian
  hessianDiagonal : g.hessianDiagonal = f.hessianDiagonal
  hessianBlockDiagonal : g.hessianBlockDiagonal = f.hessianBlockDiagonal
  gradientAtZero : g.gradientAtZero = f.gradientAtZero
  errorVector : ∀ x, OneAxis x f.keys → g.errorVector x = f.errorVector x
  error : ∀ x, OneAxis x f.keys → g.error x = f.error x
  multiplyHessianAdd : ∀ x, OneAxis x f.keys → ∀ scale y,
    g.multiplyHessianAdd scale x y = f.multiplyHessianAdd scale x y
  hessianDiagonalFlat : g.hessianDiagonalFlat = f.hessianDiagonalFlat
  multiplyHessianAddFlat : g.multiplyHessianAddFlat = f.multiplyHessianAddFlat
  addTo : g.addTo = f.addTo

theorem Folded.sameMeaning {f g : LinearFactor K} (h : f.Folded g) : f.SameMeaning g where
  whitenedSystem := h.whitenedSystem
  jacobian := h.jacobian
  hessianDiagonal := h.hessianDiagonal
  hessianBlockDiagonal := h.hessianBlockDiagonal
  gradientAtZero := h.gradientAtZero
  errorVector _ hx := h.errorVector hx
  error _ hx := h.error hx
  multiplyHessianAdd _ hx := h.multiplyHessianAdd hx
  hessianDiagonalFlat := by
    funext width layout d
    exact h.hessianDiagonalFlat width layout d
  multiplyHessianAddFlat := by
    funext width layout scale x y
    exact h.multiplyHessianAddFlat width layout scale x y
  addTo := by
    funext slots M
    exact h.addTo slots M

/-- Where a factor can be whitened and keeps its gradient, there is one deviation for each row. -/
theorem onePerRow_of_gradientAtZero {f g : LinearFactor K} (hg : f.whiten = .ok g)
    (h : g.gradientAtZero = f.gradientAtZero) : OnePerRow f.model f.rows := by
  have hmodel := (parts_of_whiten hg).2
  obtain ⟨-, hnone⟩ | ⟨m, hm, hc, hsome⟩ := remainingModel_cases f.model
  · have hok : g.gradientAtZero = .ok (g.terms.mapValues fun _ A => -A.transposeMulVec g.rhs) := by
      rw [gradientAtZero, hmodel, hnone]
      rfl
    obtain ⟨u, hu, -⟩ := bind_eq_ok.mp (h.symm.trans hok)
    exact onePerRow_of_whitenTwice f.model_rows hu
  · -- A model that stays counts the rows of both factors, and the scaled ones are one for each deviation.
    have hrows : m.rows? = some g.rhs.size := by
      rw [← m.rows?_unweighted]
      exact g.model_rows _ (hmodel.trans hsome)
    have hsize : g.rhs.size = f.rows := Option.some.inj (hrows.symm.trans (f.model_rows m hm))
    have hunit : ∀ u, m ≠ .unit u := by
      rintro u rfl
      cases hc
    intro m' hm'
    cases hm.symm.trans hm'
    rw [← hsize, (whitenedTo_of_whiten hg).rhs, scaling, hm, Noise.scaling_some _ hunit,
      ← Noise.size_scales_eq_flatten]
    exact (Vec.size_ofFn _ _).symm

/-- **Folding the noise into a factor preserves its meaning**: with one deviation for each row, and only
then, whitening gives a factor of the same kind, keys and widths that no operation tells from the
original, and that whitening leaves as it is. -/
theorem whiten_preserves_iff {f : LinearFactor K} :
    (∃ g, f.whiten = .ok g ∧ g.kind = f.kind ∧ g.keys = f.keys ∧ g.widths = f.widths ∧ f.SameMeaning g ∧
      g.whiten = .ok g) ↔ OnePerRow f.model f.rows := by
  constructor
  · rintro ⟨g, hg, -, -, -, hsame, -⟩
    exact onePerRow_of_gradientAtZero hg hsame.gradientAtZero
  · intro hone
    obtain ⟨g, hg, hkeys, hwidths⟩ := exists_whiten_of_onePerRow hone
    have h : f.Folded g := ⟨hone, hg⟩
    exact ⟨g, hg, h.kind, hkeys, hwidths, h.sameMeaning, h.whiten_self⟩

def zeroColumns (f : LinearFactor ℚ) : Container ℚ := f.terms.mapValues fun _ A => .ofMat (Mat.zeros A.cols 2)

/-- Two rows with four deviations are not whitened, and one row with two loses a fault when it is. Columns
tell any factor from what it is whitened to: they are scaled by rows, but the right-hand side goes with
them as a row. -/
theorem whiten_fourDeviations :
    (∀ m, BlockMatrix.fourDeviations.model = some m → ∀ i < 4, m.sigmas.flatten.get i = 1) ∧
      BlockMatrix.fourDeviations.whiten = .error .shapeMismatch ∧
      (∃ g, (Solver.twoDeviations ℚ).whiten = .ok g ∧
        g.gradientAtZero ≠ (Solver.twoDeviations ℚ).gradientAtZero) ∧
      ∃ g, (BlockMatrix.tiltedPair ℚ).whiten = .ok g ∧
        g.errorVector (zeroColumns (BlockMatrix.tiltedPair ℚ)) ≠
          (BlockMatrix.tiltedPair ℚ).errorVector (zeroColumns (BlockMatrix.tiltedPair ℚ)) := by
  refine ⟨?_, rfl, ?_, ?_⟩
  · intro m hm
    cases hm
    decide +kernel
  · have hok : ((Solver.twoDeviations ℚ).whiten >>= gradientAtZero).toOption.isSome = true := by decide +kernel
    obtain ⟨g, hg, hgradient⟩ := bind_eq_ok.mp (toOption_eq_some.mp (Option.eq_some_of_isSome hok))
    refine ⟨g, hg, fun heq => ?_⟩
    have hfault : (Solver.twoDeviations ℚ).gradientAtZero = .error (.whitenRows 1 [2]) := rfl
    cases hgradient.symm.trans (heq.trans hfault)
  · have hfolded : ((BlockMatrix.tiltedPair ℚ).whiten >>= fun g =>
        g.errorVector (zeroColumns (BlockMatrix.tiltedPair ℚ))).toOption.map (fun e => e.get [0, 1]) =
          some (-2 / 3) := by decide +kernel
    have hplain : ((BlockMatrix.tiltedPair ℚ).errorVector (zeroColumns (BlockMatrix.tiltedPair ℚ))).toOption.map
        (fun e => e.get [0, 1]) = some (-1) := by decide +kernel
    cases hg : (BlockMatrix.tiltedPair ℚ).whiten with
    | error e =>
      rw [hg] at hfolded
      cases hfolded
    | ok g =>
      refine ⟨g, rfl, fun heq => ?_⟩
      rw [hg, ok_bind, heq, hplain] at hfolded
      exact absurd hfolded (by decide +kernel)

end LinearFactor
end BundleAdjustment
