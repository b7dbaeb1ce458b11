import BundleAdjustment.Proofs.Linear.Ordering
import BundleAdjustment.Proofs.Solver.Operators

/-!
The operators and the assembled matrix.

For the same factors, ordering and widths, the operators on flat buffers and the matrix of blocks
are one system. Where both are defined, the product with a vector is the product with the information
matrix, the diagonal is its diagonal, and the gradient is the linear term with its sign changed
(`operators_eq_assembled`).
-/
namespace BundleAdjustment
open Matrix BlockMatrix
variable {K : Type} [ExactScalar K]

namespace LinearFactor

/-- Every term of a folded factor has its places in the layout, where its block is. -/
structure AgreesOn (f : LinearFactor K) (l : Layout) (slots : SlotTable) (widths : List Nat) : Prop where
  inLayout : f.InLayout l
  start : ∀ e ∈ f.terms.entries, l.start e.1 = slots.start widths e.1

theorem agreesOn_of_addTo {f : LinearFactor K} {l : Layout} {slots : SlotTable} {M M' : BlockMatrix K}
    (hag : Agrees l slots M.widths) (h : f.addTo slots M = (M', .ok ())) :
    f.AgreesOn l slots M.widths := by
  unfold addTo at h
  cases hw : f.writes slots M with
  | error e =>
    rw [hw] at h
    cases h
  | ok ws =>
    rcases writes_eq_ok hw with ⟨he, -⟩ | ⟨-, g, hfold, hg, -⟩
    · have hnil : f.terms.entries = [] := List.isEmpty_iff.mp he
      refine ⟨fun e he => ?_, fun e he => ?_⟩
      · rw [hnil] at he
        cases he
      · rw [hnil] at he
        cases he
    · have hentries := (whitenedTo_of_foldsTo hfold).terms
      have hplace : ∀ e ∈ f.terms.entries,
          l.Holds e.1 e.2.cols ∧ l.start e.1 = slots.start M.widths e.1 := by
        intro e he
        have hge : (e.1, f.scaling.mat e.2) ∈ g.terms.entries := by
          rw [hentries]
          exact List.mem_map.mpr ⟨e, he, rfl⟩
        obtain ⟨hhold, hstart⟩ := hag.holds e.1 _ (hg.found e.1 (List.mem_map.mpr ⟨_, hge, rfl⟩))
        have hwidth : M.widths.getD (slots.slotOf e.1).toNat 0 = e.2.cols :=
          hg.widths (e.1, f.scaling.mat e.2) hge
        exact ⟨hwidth ▸ hhold, hstart⟩
      exact ⟨fun e he => (hplace e he).1, fun e he => (hplace e he).2⟩

theorem spreadAt_congr {start start' : Key → Nat} {terms : List (Key × Mat K)}
    (h : ∀ e ∈ terms, start e.1 = start' e.1) (k c : Nat) :
    spreadAt start terms k c = spreadAt start' terms k c := by
  unfold spreadAt
  congr 1
  refine List.map_congr_left fun e he => ?_
  rw [h e he]

/-- Beyond the buffer there are no columns. -/
theorem spreadAt_eq_zero {f : LinearFactor K} {l : Layout} (hf : f.InLayout l) {k c : Nat}
    (hc : l.length ≤ c) : spreadAt l.start f.terms.entries k c = 0 := by
  refine List.sum_eq_zero fun v hv => ?_
  obtain ⟨e, he, rfl⟩ := List.mem_map.mp hv
  have hin := (hf e he).inside
  rw [if_neg (by omega)]

end LinearFactor

namespace BlockMatrix.Agrees
variable {l : Layout} {slots : SlotTable} {widths : List Nat}

/-- A place of the buffer, among the columns of the matrix. -/
def inner (h : Agrees l slots widths) (R : Fin l.length) : Fin (total widths) :=
  ⟨R, by have := h.length; omega⟩

/-- The column of the right-hand side. -/
def final (h : Agrees l slots widths) : Fin (total widths) := ⟨l.length, by have := h.length; omega⟩

end BlockMatrix.Agrees

namespace LinearFactor

theorem gram_apply {m n : Nat} (B : Matrix (Fin m) (Fin n) K) (G : Matrix (Fin m) (Fin m) K) (R C : Fin n) :
    (Bᵀ * G * B) R C = (fun i => B i R) ⬝ᵥ (G *ᵥ fun i => B i C) := by
  rw [Matrix.mul_assoc]
  rfl

section Columns
variable {f : LinearFactor K} {l : Layout} {slots : SlotTable} {widths : List Nat}

theorem augmented_inner (hag : Agrees l slots widths) (hf : f.AgreesOn l slots widths) (R : Fin l.length) :
    (fun k => f.augmented slots widths k (hag.inner R)) = fun k => f.spread l.start l.length k R := by
  funext k
  have hne : ¬ ((R : Nat) + 1 = total widths) := by
    rw [hag.length]
    omega
  show spreadAt (slots.start widths) f.terms.entries k R + (if (R : Nat) + 1 = total widths then _ else _) = _
  rw [if_neg hne, add_zero, ← spreadAt_congr hf.start]
  rfl

theorem augmented_final (hag : Agrees l slots widths) (hf : f.AgreesOn l slots widths) :
    (fun k => f.augmented slots widths k hag.final) = f.rhs.coords f.rows := by
  funext k
  show spreadAt (slots.start widths) f.terms.entries k l.length +
    (if l.length + 1 = total widths then f.rhs.get k else 0) = _
  rw [if_pos hag.length.symm, ← spreadAt_congr hf.start, spreadAt_eq_zero hf.inLayout le_rfl, zero_add]
  rfl

theorem normalMatrix_inner (hag : Agrees l slots widths) (hf : f.AgreesOn l slots widths)
    (R C : Fin l.length) :
    f.normalMatrix slots widths (hag.inner R) (hag.inner C) = f.hessianMatrix l.start l.length R C := by
  rw [normalMatrix, hessianMatrix, gram_apply, gram_apply, augmented_inner hag hf, augmented_inner hag hf]

theorem normalMatrix_final (hag : Agrees l slots widths) (hf : f.AgreesOn l slots widths)
    (R : Fin l.length) :
    f.normalMatrix slots widths (hag.inner R) hag.final = f.normalRhs l.start l.length R := by
  rw [normalMatrix, gram_apply, augmented_inner hag hf, augmented_final hag hf]
  rfl

/-- Without a model, the corner is the squared length of the right-hand side. -/
theorem normalMatrix_corner (hag : Agrees l slots widths) (hf : f.AgreesOn l slots widths)
    (hm : f.model = none) : f.normalMatrix slots widths hag.final hag.final = f.rhs.dot f.rhs := by
  have hw : f.WhitenedTo f := whitenedTo_self (by rw [hm]; rfl)
  rw [normalMatrix_apply hw, Vec.dot, Scalar.sum_eq_range]
  refine Finset.sum_congr rfl fun k hk => ?_
  have hcol := congrFun (augmented_final hag hf) ⟨k, Finset.mem_range.mp hk⟩
  have hcol : f.augmentedAt (slots.start widths) (total widths) k hag.final = f.rhs.get k := hcol
  rw [hcol]

end Columns

/-- Factors that are folded in agree with the layout. -/
theorem agreesOn_of_foldFactors {l : Layout} {slots : SlotTable} {M M' : BlockMatrix K}
    {factors : List (LinearFactor K)} (hag : Agrees l slots M.widths)
    (h : M.foldFactors slots factors = .ok M') : ∀ f ∈ factors, f.AgreesOn l slots M.widths := by
  induction factors generalizing M with
  | nil =>
    intro f hf
    cases hf
  | cons f rest ih =>
    unfold foldFactors at h
    rcases ha : f.addTo slots M with ⟨M₁, r⟩
    rw [ha] at h
    cases r with
    | error e => cases h
    | ok u =>
      have hw := (full_addTo hag.last ha).1
      intro g hg
      rcases List.mem_cons.mp hg with rfl | hg
      · exact agreesOn_of_addTo hag ha
      · exact hw ▸ ih (hw.symm ▸ hag) h g hg

theorem normalSum_inner {l : Layout} {slots : SlotTable} {widths : List Nat}
    (hag : Agrees l slots widths) {factors : List (LinearFactor K)}
    (hf : ∀ f ∈ factors, f.AgreesOn l slots widths) (R C : Fin l.length) :
    normalSum slots widths factors (hag.inner R) (hag.inner C) = Solver.hessianSum l factors R C := by
  induction factors with
  | nil => rfl
  | cons f rest ih =>
    rw [normalSum_cons, Matrix.add_apply, ih fun g hg => hf g (List.mem_cons_of_mem f hg),
      Solver.hessianSum, Solver.hessianSum, List.map_cons, List.sum_cons, Matrix.add_apply]
    congr 1
    cases he : f.isEmpty with
    | true =>
      rw [if_pos rfl, hessianMatrix_of_isEmpty he]
      rfl
    | false => exact normalMatrix_inner hag (hf f (List.mem_cons_self ..)) R C

theorem normalSum_final {l : Layout} {slots : SlotTable} {widths : List Nat}
    (hag : Agrees l slots widths) {factors : List (LinearFactor K)}
    (hf : ∀ f ∈ factors, f.AgreesOn l slots widths) (R : Fin l.length) :
    normalSum slots widths factors (hag.inner R) hag.final = Solver.rhsSum l factors R := by
  induction factors with
  | nil => rfl
  | cons f rest ih =>
    rw [normalSum_cons, Matrix.add_apply, ih fun g hg => hf g (List.mem_cons_of_mem f hg),
      Solver.rhsSum, Solver.rhsSum, List.map_cons, List.sum_cons, Pi.add_apply]
    congr 1
    cases he : f.isEmpty with
    | true =>
      rw [if_pos rfl, normalRhs, spread_of_isEmpty he]
      simp
    | false => exact normalMatrix_final hag (hf f (List.mem_cons_self ..)) R

theorem normalSum_corner {l : Layout} {slots : SlotTable} {widths : List Nat}
    (hag : Agrees l slots widths) {factors : List (LinearFactor K)}
    (hf : ∀ f ∈ factors, f.AgreesOn l slots widths)
    (hm : ∀ f ∈ factors, f.isEmpty = false ∧ f.model = none) :
    normalSum slots widths factors hag.final hag.final = (factors.map fun f => f.rhs.dot f.rhs).sum := by
  induction factors with
  | nil => rfl
  | cons f rest ih =>
    obtain ⟨hne, hnone⟩ := hm f (List.mem_cons_self ..)
    rw [normalSum_cons, Matrix.add_apply, ih (fun g hg => hf g (List.mem_cons_of_mem f hg)) fun g hg =>
      hm g (List.mem_cons_of_mem f hg), hne, List.map_cons, List.sum_cons]
    congr 1
    exact normalMatrix_corner hag (hf f (List.mem_cons_self ..)) hnone

end LinearFactor

namespace BlockMatrix
open LinearFactor

/-- What is assembled agrees with the layout of the same widths. -/
theorem agreesOn_of_accumulate {factors : List (Option (LinearFactor K))} {l : Layout}
    {slots : SlotTable} {counts : List Count} {M : BlockMatrix K}
    (h : accumulate factors slots counts = .ok M) (hag : Agrees l slots M.widths) :
    ∀ f ∈ factors.filterMap id, f.AgreesOn l slots M.widths := by
  obtain ⟨table, M₀, ht, -, hM, hfold⟩ := accumulate_eq_ok h
  obtain ⟨given, -, -, hw, -⟩ := ofCounts_eq_ok hM
  have hlast : M₀.widths.getLast? = some 1 := by rw [hw, List.getLast?_concat]
  have hwidths : M.widths = M₀.widths := (full_foldFactors hlast hfold).1
  have hstart : ∀ key, (SlotTable.mapping table).start M₀.widths key = slots.start M.widths key := by
    intro key
    rw [SlotTable.start, SlotTable.start, slotOf_mapping ht, hwidths]
  have hag' : Agrees l (.mapping table) M₀.widths := by
    refine ⟨hwidths ▸ hag.length, hlast, fun key s hs => ?_⟩
    rw [slot_mapping ht] at hs
    rw [hstart, ← hwidths]
    exact hag.holds key s hs
  intro f hf
  obtain ⟨hin, hst⟩ := agreesOn_of_foldFactors hag' hfold f hf
  exact ⟨hin, fun e he => (hst e he).trans (hstart e.1)⟩

/-- The information matrix is the whole matrix without its last column and row. -/
theorem information_eq {M : BlockMatrix K} {n : Nat} (hlast : M.widths.getLast? = some 1)
    (hn : M.order = n + 1) : M.information = .ok (Mat.ofFn n n M.full.get) := by
  obtain ⟨l, hl, hlc, -, hend⟩ := last_of_getLast? hlast
  have hcount : M.count - 1 = l := by
    unfold lastSlot at hl
    omega
  have hne : M.widths ≠ [] := by
    intro hnil
    rw [hnil] at hlast
    cases hlast
  have hoff : M.offset l = n := by omega
  rw [information, if_neg hne, hcount, hoff]

end BlockMatrix

namespace Solver
open LinearFactor

section Assembled
variable {factors : List (LinearFactor K)} {l : Layout} {slots : SlotTable} {counts : List Count}
  {M : BlockMatrix K} (hM : accumulate (factors.map some) slots counts = .ok M)
  (hag : Agrees l slots M.widths)
include hM

theorem full_of_assembled :
    M.full.matrix (total M.widths) (total M.widths) = normalSum slots M.widths factors := by
  have hfull := full_accumulate hM
  rwa [List.filterMap_map, Function.id_comp, List.filterMap_some] at hfull

include hag

theorem agreesOn_of_assembled : ∀ f ∈ factors, f.AgreesOn l slots M.widths := by
  have hagree := agreesOn_of_accumulate hM hag
  rwa [List.filterMap_map, Function.id_comp, List.filterMap_some] at hagree

/-- The assembled information matrix is the Hessian. -/
theorem information_eq_hessianSum :
    ∃ I, M.information = .ok I ∧ I.rows = l.length ∧ I.cols = l.length ∧
      I.matrix l.length l.length = hessianSum l factors := by
  refine ⟨_, information_eq hag.last hag.length, rfl, rfl, ?_⟩
  funext R C
  rw [Mat.matrix_ofFn, ← normalSum_inner hag (agreesOn_of_assembled hM hag), ← full_of_assembled hM]
  rfl

/-- The assembled linear term is the right-hand side. -/
theorem linearTerm_eq_rhsSum :
    M.linearTerm.size = l.length ∧ M.linearTerm.coords l.length = rhsSum l factors := by
  have horder : M.order = l.length + 1 := hag.length
  refine ⟨?_, ?_⟩
  · have hsize := size_linearTerm hag.last
    omega
  · funext R
    have hR : (R : Nat) + 1 < M.order := by omega
    rw [Vec.coords_apply, get_linearTerm hag.last hR, horder, Nat.add_sub_cancel,
      ← normalSum_final hag (agreesOn_of_assembled hM hag), ← full_of_assembled hM]
    rfl

end Assembled

/-- **The operators without a matrix are the assembled matrix.** Where factors can be assembled and
each row has one deviation, the operators succeed on the layout of the same ordering and widths. -/
theorem operators_eq_assembled {factors : List (LinearFactor K)} {ordering : List Key}
    {dims : List Count} {M : BlockMatrix K}
    (hM : accumulate (factors.map some) (.ordering ordering) dims = .ok M)
    (hrows : ∀ f ∈ factors, OnePerRow f.model f.rows) :
    ∃ l I, Layout.ofWidths ordering dims = .ok l ∧ M.information = .ok I ∧
      (∀ (alpha : K) (x : Vec K), (x.size : Int) = l.size →
        multiplyHessian factors (.ofVec x) l alpha = .ok ((I.mulVec x).scale alpha)) ∧
      hessianDiagonal factors l = .ok (Vec.ofFn I.rows fun i => I.get i i) ∧
      gradientAtZero factors l = .ok (-M.linearTerm) := by
  obtain ⟨l, hl, hproper, hag⟩ := layout_of_accumulate hM
  obtain ⟨I, hinfo, hIr, hIc, hI⟩ := information_eq_hessianSum hM hag
  obtain ⟨hbs, hb⟩ := linearTerm_eq_rhsSum hM hag
  have happ : ∀ f ∈ factors, f.Applies l := fun f hf =>
    ⟨(agreesOn_of_assembled hM hag f hf).inLayout, hrows f hf⟩
  refine ⟨l, I, hl, hinfo, ?_, ?_, ?_⟩
  · intro alpha x hx
    have hsize : x.size = l.length := by
      rw [Layout.length, ← hx]
      rfl
    obtain ⟨y, hy, hys, hyc⟩ := multiplyHessian_eq hproper happ alpha hsize
    have hmul : (I.mulVec x).size = l.length := (Mat.size_mulVec I x).trans hIr
    rw [hy]
    congr 1
    refine Vec.eq_of_coords hys ((Vec.size_scale _ _).trans hmul) ?_
    rw [hyc, Vec.coords_scale alpha hmul, Mat.coords_mulVec hIr hIc, hI]
  · obtain ⟨d, hd, hds, hdc⟩ := hessianDiagonal_eq hproper happ
    rw [hd, hIr]
    congr 1
    refine Vec.eq_of_coords hds (Vec.size_ofFn _ _) ?_
    rw [hdc, ← hI, Vec.coords_ofFn]
    rfl
  · obtain ⟨g, hg, hgs, hgc⟩ := gradientAtZero_eq hproper happ
    rw [hg]
    congr 1
    refine Vec.eq_of_coords hgs ((Vec.size_neg _).trans hbs) ?_
    rw [hgc, Vec.coords_neg hbs, hb]

theorem operators_eq_assembled_tiltedPair :
    ∃ (M : BlockMatrix ℚ) (l : Layout) (I : Mat ℚ),
      accumulate [some (tiltedPair ℚ)] (.ordering [.number 0, .number 1]) [.whole 2, .whole 1] = .ok M ∧
      (∀ f ∈ [tiltedPair ℚ], OnePerRow f.model f.rows) ∧
      Layout.ofWidths [.number 0, .number 1] [.whole 2, .whole 1] = .ok l ∧ M.information = .ok I ∧
      (∀ (alpha : ℚ) (x : Vec ℚ), (x.size : Int) = l.size →
        multiplyHessian [tiltedPair ℚ] (.ofVec x) l alpha = .ok ((I.mulVec x).scale alpha)) ∧
      hessianDiagonal [tiltedPair ℚ] l = .ok (Vec.ofFn I.rows fun i => I.get i i) ∧
      gradientAtZero [tiltedPair ℚ] l = .ok (-M.linearTerm) := by
  have hok : (accumulate [some (tiltedPair ℚ)] (.ordering [.number 0, .number 1])
      [.whole 2, .whole 1]).toOption.isSome = true := by decide +kernel
  obtain ⟨M, hM⟩ := Option.isSome_iff_exists.mp hok
  have hM : accumulate ([tiltedPair ℚ].map some) (.ordering [.number 0, .number 1]) [.whole 2, .whole 1] =
      .ok M := toOption_eq_some.mp hM
  obtain ⟨l, I, hl, h⟩ := operators_eq_assembled hM onePerRow_tiltedPair
  exact ⟨M, l, I, hM, onePerRow_tiltedPair, hl, h⟩

/-- A layout of offsets on which the pair has its places. -/
theorem spans_tiltedPair :
    ∃ l : Layout, Layout.ofOffsets [.whole 0, .whole 2, .whole 3] = .ok l ∧ l.Proper ∧ l.size = 3 ∧
      ∀ f ∈ [tiltedPair K], ∀ e ∈ f.terms.entries, ∃ o, l.span e.1 = .ok (o, (e.2.cols : Int)) := by
  obtain ⟨l, hl⟩ : ∃ l, Layout.ofOffsets [.whole 0, .whole 2, .whole 3] = .ok l := ⟨_, rfl⟩
  have hproper : l.Proper := by
    refine Layout.proper_ofOffsets hl fun w hw n hn => ?_
    simp only [List.mem_cons, List.not_mem_nil, or_false] at hw
    rcases hw with rfl | rfl | rfl <;> cases hn <;> decide
  cases hl
  refine ⟨_, rfl, hproper, rfl, fun f hf e he => ?_⟩
  rw [List.mem_singleton.mp hf] at he
  rcases List.mem_cons.mp he with rfl | he
  · exact ⟨2, rfl⟩
  · rw [List.mem_singleton.mp he]
    exact ⟨0, rfl⟩

def oneUnknown : Layout := ⟨⟨[(.number 0, (0, 1))], by decide⟩, 1⟩

theorem ofWidths_oneUnknown : Layout.ofWidths [.number 0] [.whole 1] = .ok oneUnknown := rfl

theorem proper_oneUnknown : oneUnknown.Proper := by
  refine Layout.proper_ofWidths ofWidths_oneUnknown fun w hw n hn => ?_
  rw [List.mem_singleton.mp hw] at hn
  cases hn
  decide

theorem spans_twoDeviations :
    ∀ e ∈ (twoDeviations K).terms.entries, oneUnknown.span e.1 = .ok (0, (e.2.cols : Int)) := by
  intro e he
  rw [List.mem_singleton.mp he]
  rfl

/-- A factor whose row is weighed twice is assembled, but its right-hand side cannot be whitened twice. -/
theorem gradientAtZero_twoDeviations :
    ∃ (M : BlockMatrix ℚ) (l : Layout),
      (twoDeviations ℚ).model.elim false Noise.isConstrained = false ∧
      accumulate [some (twoDeviations ℚ)] (.ordering [.number 0]) [.whole 1] = .ok M ∧
      Layout.ofWidths [.number 0] [.whole 1] = .ok l ∧
      gradientAtZero [twoDeviations ℚ] l = .error (.whitenRows 1 [2]) := by
  have hfree : (twoDeviations ℚ).model.elim false Noise.isConstrained = false := by decide +kernel
  have hwhiten : (twoDeviations ℚ).whiten.toOption.isSome = true := by decide +kernel
  obtain ⟨g, hg⟩ := Option.isSome_iff_exists.mp hwhiten
  have hplaced : (twoDeviations ℚ).PlacedIn (.mapping ⟨[(.number 0, .whole 0)], by decide⟩)
      (BlockMatrix.ofWidths [1, 1] (by decide)) := by
    refine ⟨?_, ?_, ?_, ?_⟩ <;> decide +kernel
  have hadd := addTo_eq_ok hplaced rfl hfree (toOption_eq_some.mp hg)
  exact ⟨_, oneUnknown, hfree, foldFactors_singleton hadd, ofWidths_oneUnknown, rfl⟩

end Solver
end BundleAdjustment
