import BundleAdjustment.Proofs.Linear.Bounds
import BundleAdjustment.Proofs.Solver.Operators

/-!
What the success of the operators says.

An operator that gives an answer has looked up every key, has found its span in the buffer and as long
as the term is wide, and has whitened every right-hand side. Where the gradient at zero is defined, each
row has one deviation (`applies_of_gradient`), and on a proper layout that is all that the operators ask.
On any other layout a span may count from the end of the buffer; there the product with a single vector
says that the span is the places that it should be (`applies_of_product`).
-/
namespace BundleAdjustment
open Layout
variable {K : Type} [ExactScalar K]

namespace Layout

theorem size_of_addSpan {buffer value y : Vec K} {span : Int × Int} (h : addSpan buffer span value = .ok y) :
    y.size = buffer.size := by
  unfold addSpan at h
  dsimp only at h
  by_cases hempty : place buffer.size (span.1 + span.2) ≤ place buffer.size span.1
  · rw [if_pos hempty] at h
    cases h
    rfl
  · rw [if_neg hempty] at h
    by_cases hsize : value.size = place buffer.size (span.1 + span.2) - place buffer.size span.1 ∨ value.size = 1
    · rw [if_pos hsize] at h
      cases h
      exact Vec.size_ofFn _ _
    · rw [if_neg hsize] at h
      cases h

theorem scatterAdd_eq_ok {l : Layout} {key : Key} {buffer value y : Vec K}
    (h : l.scatterAdd (.ofVec buffer) key (.ofVec value) = .ok y) :
    l.span key = .ok (l.spanOf key) ∧ (l.spanOf key).2 = value.size ∧
      (l.spanOf key).1 + (l.spanOf key).2 ≤ buffer.size ∧ y.size = buffer.size := by
  obtain ⟨s, hs, h⟩ := bind_eq_ok.mp h
  obtain ⟨hspan, rfl, hfits⟩ := checkedSpan_eq_ok hs
  have h : (if (value.size : Int) = (l.spanOf key).2 then addSpan buffer (l.spanOf key) value
    else throw (.spanValue [value.size] (l.spanOf key).2)) = .ok y := h
  split at h
  · rename_i hwidth
    exact ⟨hspan, hwidth.symm, hfits, size_of_addSpan h⟩
  · cases h

theorem gather_eq_ok {l : Layout} {key : Key} {buffer v : Vec K} (h : l.gather (.ofVec buffer) key = .ok v) :
    v = readSpan buffer (l.spanOf key) := by
  obtain ⟨s, hs, h⟩ := bind_eq_ok.mp h
  obtain ⟨-, rfl, -⟩ := checkedSpan_eq_ok hs
  exact (pure_eq_ok.mp h).symm

end Layout

namespace LinearFactor

/-- Every key of a factor has a span that is as long as its term is wide and ends within the buffer. -/
def Spanned (f : LinearFactor K) (l : Layout) : Prop :=
  ∀ e ∈ f.terms.entries, l.span e.1 = .ok (l.spanOf e.1) ∧ (l.spanOf e.1).2 = e.2.cols ∧
    (l.spanOf e.1).1 + (l.spanOf e.1).2 ≤ l.length

end LinearFactor

namespace Solver
open LinearFactor

/-! ### The gradient at zero -/

theorem scatterAll_eq_ok {l : Layout} {terms : List (Key × Mat K)} {value : Key × Mat K → Vec K}
    {y y' : Vec K} {blocks : Container K} (hb : blocks.entries = terms.map fun e => (e.1, .ofVec (value e)))
    (h : scatterAll l y blocks = .ok y') :
    y'.size = y.size ∧ ∀ e ∈ terms, l.span e.1 = .ok (l.spanOf e.1) ∧ (l.spanOf e.1).2 = (value e).size ∧
      (l.spanOf e.1).1 + (l.spanOf e.1).2 ≤ y.size := by
  rw [scatterAll, hb, List.foldlM_map] at h
  obtain ⟨hsize, hsteps⟩ := foldlM_steps (P := fun v : Vec K => v.size = y.size)
    (fun v e _ v' hv hstep => (scatterAdd_eq_ok hstep).2.2.2.trans hv) rfl h
  refine ⟨hsize, fun e he => ?_⟩
  obtain ⟨v, v', hv, hstep⟩ := hsteps e he
  obtain ⟨hspan, hwidth, hfits, -⟩ := scatterAdd_eq_ok hstep
  exact ⟨hspan, hwidth, hv ▸ hfits⟩

theorem addGradient_eq_ok {f : LinearFactor K} {l : Layout} {g g' : Vec K} (hg : g.size = l.length)
    (h : addGradient l g f = .ok g') :
    g'.size = l.length ∧ OnePerRow f.model f.rows ∧ f.Spanned l := by
  rw [addGradient_byKey] at h
  obtain ⟨t, ht, h⟩ := bind_eq_ok.mp h
  obtain ⟨e, he, ht⟩ := bind_eq_ok.mp ht
  cases ht
  have hblocks : (asContainer (f.terms.mapValues fun _ A => -A.transposeMulVec e)).entries =
      f.terms.entries.map fun t => (t.1, .ofVec (-t.2.transposeMulVec e)) := by
    simp only [asContainer, Table.mapValues, List.map_map, Function.comp_def]
  obtain ⟨hsize, hspans⟩ := scatterAll_eq_ok hblocks h
  refine ⟨hsize.trans hg, onePerRow_of_whitenTwice f.model_rows he, fun t ht => ?_⟩
  obtain ⟨hspan, hwidth, hfits⟩ := hspans t ht
  refine ⟨hspan, ?_, hg ▸ hfits⟩
  rw [hwidth, Vec.size_neg, Mat.size_transposeMulVec]

theorem zeros_eq_ok {l : Layout} {v : Vec K} (h : l.zeros = .ok v) : 0 ≤ l.size ∧ v.size = l.length := by
  unfold Layout.zeros Tensor.zeros at h
  split at h
  · rename_i hsize
    cases h
    exact ⟨hsize, Vec.size_zeros _⟩
  · cases h

/-- **A gradient at zero says that each row has one deviation and each key its span.** -/
theorem gradientAtZero_eq_ok {factors : List (LinearFactor K)} {l : Layout} {g : Vec K}
    (h : gradientAtZero factors l = .ok g) :
    0 ≤ l.size ∧ g.size = l.length ∧ ∀ f ∈ factors, OnePerRow f.model f.rows ∧ f.Spanned l := by
  obtain ⟨z, hz, h⟩ := bind_eq_ok.mp h
  obtain ⟨hsize, hzs⟩ := zeros_eq_ok hz
  obtain ⟨hg, hsteps⟩ := foldlM_steps (P := fun v : Vec K => v.size = l.length)
    (fun v f _ v' hv hstep => (addGradient_eq_ok hv hstep).1) hzs h
  refine ⟨hsize, hg, fun f hf => ?_⟩
  obtain ⟨v, v', hv, hstep⟩ := hsteps f hf
  exact (addGradient_eq_ok hv hstep).2

/-- On a proper layout the operators apply wherever the gradient at zero is defined. -/
theorem applies_of_gradient {factors : List (LinearFactor K)} {l : Layout} (hl : l.Proper) {g : Vec K}
    (h : gradientAtZero factors l = .ok g) : ∀ f ∈ factors, f.Applies l := by
  intro f hf
  obtain ⟨hone, hspans⟩ := (gradientAtZero_eq_ok h).2.2 f hf
  refine ⟨fun e he => ?_, hone⟩
  obtain ⟨hspan, hwidth, -⟩ := hspans e he
  exact hl.holds (hspan.trans (congrArg (fun n => Except.ok ((l.spanOf e.1).1, n)) hwidth))

/-! ### The product with a vector -/

theorem gatherAll_eq_ok {l : Layout} {x : Vec K} {keys : List Key} (hd : keys.Nodup) {t t' : Container K}
    (h : keys.foldlM (fun t key => return t.insert key (.ofVec (← l.gather (.ofVec x) key))) t = Except.ok t') :
    (∀ key ∈ keys, t'.find? key = some (.ofVec (readSpan x (l.spanOf key)))) ∧
      ∀ key, key ∉ keys → t'.find? key = t.find? key := by
  induction keys generalizing t with
  | nil =>
    cases h
    refine ⟨?_, fun _ _ => rfl⟩
    intro key hkey
    cases hkey
  | cons key rest ih =>
    obtain ⟨hnot, hrest⟩ := List.nodup_cons.mp hd
    rw [List.foldlM_cons] at h
    obtain ⟨t₁, h₁, h⟩ := bind_eq_ok.mp h
    obtain ⟨v, hv, h₁⟩ := bind_eq_ok.mp h₁
    obtain ⟨hfound, hother⟩ := ih hrest h
    have ht₁ : t₁ = t.insert key (.ofVec (readSpan x (l.spanOf key))) := by
      rw [← pure_eq_ok.mp h₁, gather_eq_ok hv]
    refine ⟨fun k hk => ?_, fun k hk => ?_⟩
    · rcases List.mem_cons.mp hk with rfl | hk
      · rw [hother k hnot, ht₁, Table.find?_insert, if_pos rfl]
      · exact hfound k hk
    · rw [List.mem_cons, not_or] at hk
      rw [hother k hk.2, ht₁, Table.find?_insert, if_neg fun he => hk.1 he.symm]

theorem addProducts_eq_ok {x : Container K} {e e' : Tensor K} {terms : List (Key × Mat K)}
    (h : addProducts x e terms = .ok e') :
    ∀ t ∈ terms, ∃ v w, x.find? t.1 = some v ∧ (Tensor.ofMat t.2).matmul v = .ok w := by
  intro t ht
  obtain ⟨e₁, e₂, hstep⟩ := foldlM_step_of_mem h ht
  obtain ⟨v, hv, hstep⟩ := bind_eq_ok.mp hstep
  obtain ⟨w, hw, -⟩ := bind_eq_ok.mp hstep
  unfold lookUp at hv
  split at hv
  · rename_i u hu
    cases hv
    exact ⟨v, w, hu, hw⟩
  · cases hv

omit [ExactScalar K] in
theorem isEmpty_of_mem {f : LinearFactor K} {e : Key × Mat K} (he : e ∈ f.terms.entries) :
    f.isEmpty = false := by
  cases hne : f.isEmpty with
  | true =>
    rw [List.isEmpty_iff.mp hne] at he
    cases he
  | false => rfl

/-- A product of containers has multiplied each term with the places that were gathered for it. -/
theorem size_gathered {f : LinearFactor K} {l : Layout} {scale : K} {x : Vec K} {t blocks : Container K}
    (ht : gatherAll l (.ofVec x) f.keys = .ok t)
    (hblocks : f.multiplyHessianAdd scale t Table.empty = .ok blocks) :
    ∀ e ∈ f.terms.entries, (readSpan x (l.spanOf e.1)).size = e.2.cols := by
  intro e he
  have hne := isEmpty_of_mem he
  rw [multiplyHessianAdd, hne, if_neg Bool.false_ne_true] at hblocks
  obtain ⟨u, hu, -⟩ := bind_eq_ok.mp hblocks
  obtain ⟨v, w, hv, hw⟩ := addProducts_eq_ok hu e he
  rw [(gatherAll_eq_ok f.terms.distinct ht).1 e.1 (List.mem_map_of_mem he)] at hv
  cases hv
  by_contra hsize
  rw [Tensor.matmul_ofMat_ofVec_of_ne (Ne.symm hsize)] at hw
  cases hw

/-- A product of flat buffers has multiplied each term with the places of its span. -/
theorem size_spanned {f : LinearFactor K} {l : Layout} {width : Int} {scale : K} {x : Vec K}
    {y y' : Tensor K} (h : f.multiplyHessianAddFlat width (some l) scale (.ofVec x) y = .ok y') :
    ∀ e ∈ f.terms.entries, (readSpan x (l.spanOf e.1)).size = e.2.cols := by
  intro e he
  have hne := isEmpty_of_mem he
  rw [multiplyHessianAddFlat, hne, if_neg Bool.false_ne_true] at h
  obtain ⟨spans, hspans, h⟩ := bind_eq_ok.mp h
  obtain ⟨spans', -, h⟩ := bind_eq_ok.mp h
  obtain ⟨u, hu, -⟩ := bind_eq_ok.mp h
  have hmem : (l.spanOf e.1, e.2) ∈ spans.zip f.blocks := by
    rw [eq_spanOf_of_mapM (flatSpans_eq_ok hspans).1, LinearFactor.keys, Table.keys, List.map_map, blocks, List.zip_map']
    exact List.mem_map.mpr ⟨e, he, rfl⟩
  obtain ⟨e₁, e₂, hstep⟩ := foldlM_step_of_mem hu hmem
  obtain ⟨v, hv, -⟩ := bind_eq_ok.mp hstep
  unfold product at hv
  split at hv
  · rename_i hcols
    exact hcols.symm
  · cases hv

/-- **A product with one vector says how many places of it each term reads.** -/
theorem addProduct_eq_ok {f : LinearFactor K} {l : Layout} {scale : K} {x y y' : Vec K}
    (h : addProduct l scale (.ofVec x) y f = .ok y') :
    ∀ e ∈ f.terms.entries, (readSpan x (l.spanOf e.1)).size = e.2.cols := by
  have hcontainer : ((do
      scatterAll l y (← f.multiplyHessianAdd scale (← gatherAll l (.ofVec x) f.keys) Table.empty)) = .ok y') →
      ∀ e ∈ f.terms.entries, (readSpan x (l.spanOf e.1)).size = e.2.cols := by
    intro h
    obtain ⟨t, ht, h⟩ := bind_eq_ok.mp h
    obtain ⟨blocks, hblocks, -⟩ := bind_eq_ok.mp h
    exact size_gathered ht hblocks
  unfold addProduct at h
  cases hk : f.kind with
  | general =>
    rw [hk] at h
    exact hcontainer h
  | pair =>
    rw [hk] at h
    exact hcontainer h
  | uniform width =>
    rw [hk] at h
    obtain ⟨t, ht, -⟩ := bind_eq_ok.mp h
    exact size_spanned ht

/-- A span that reads as many places as it is long is these places. -/
theorem covers_of_readSpan {α : Type} [Zero α] {x : Vec α} {s : Int × Int} {n : Nat} (hw : s.2 = n)
    (hfits : s.1 + s.2 ≤ x.size) (h : (readSpan x s).size = n) :
    Covers x.size s (place x.size s.1) n := by
  refine ⟨hw, hfits, rfl, ?_⟩
  have hcut : min (place x.size (s.1 + s.2)) x.size - place x.size s.1 = n := by
    rw [← h, readSpan, Vec.slice, Vec.size_ofFn]
  have hle : place x.size (s.1 + s.2) ≤ x.size := by
    unfold place
    omega
  by_cases hn : n = 0
  · have hzero : s.1 + s.2 = s.1 := by omega
    rw [hzero, hn, Nat.add_zero]
  · omega

/-- On any layout the operators apply wherever the gradient at zero and one product are defined. -/
theorem applies_of_product {factors : List (LinearFactor K)} {l : Layout} {g x y : Vec K} {scale : K}
    (hg : gradientAtZero factors l = .ok g) (hx : x.size = l.length)
    (hy : multiplyHessian factors (.ofVec x) l scale = .ok y) : ∀ f ∈ factors, f.Applies l := by
  intro f hf
  obtain ⟨hone, hspans⟩ := (gradientAtZero_eq_ok hg).2.2 f hf
  obtain ⟨z, -, hloop⟩ := bind_eq_ok.mp hy
  obtain ⟨y₁, y₂, hstep⟩ := foldlM_step_of_mem hloop hf
  refine ⟨fun e he => ?_, hone⟩
  obtain ⟨hspan, hwidth, hfits⟩ := hspans e he
  refine ⟨hspan, ?_⟩
  have hcovers := covers_of_readSpan hwidth (hx.symm ▸ hfits) (addProduct_eq_ok hstep e he)
  rw [hx] at hcovers
  exact hcovers

/-- The diagonal has the layout's places. -/
theorem size_hessianDiagonal {factors : List (LinearFactor K)} {l : Layout} (happ : ∀ f ∈ factors, f.Applies l)
    {d : Vec K} (h : hessianDiagonal factors l = .ok d) : d.size = l.length := by
  obtain ⟨z, hz, h⟩ := bind_eq_ok.mp h
  refine (foldlM_steps (P := fun v : Vec K => v.size = l.length) (fun v f hf v' hv hstep => ?_)
    (zeros_eq_ok hz).2 h).1
  rw [addDiagonal_of_applies (happ f hf) hv] at hstep
  cases hstep
  exact (size_addBlocks ..).trans hv

end Solver
end BundleAdjustment
