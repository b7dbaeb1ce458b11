import BundleAdjustment.Proofs.Observation.Weighting
import BundleAdjustment.Proofs.Solver.MatrixFree
import BundleAdjustment.Proofs.Graph.Evaluation

/-!
The error of a graph and its information matrix.

Both are computed from the same residuals, but in different ways: the error whitens each residual
with its model, and the matrix is assembled from factors into which the noise was folded before.
In exact arithmetic they agree. The constant term is twice the error, the blocks are those of the
ordering (`hessian_eq_ok`), and an observation that is switched off or does not see its landmark
can be left out of both (`hessian_consistent`).
-/
namespace BundleAdjustment
open BlockMatrix

namespace Graph
variable {K : Type} [ExactScalar K] {g : Graph K} {values : Table Key (Tensor K)}
  {ordering : Option (List Key)} {M : BlockMatrix K}

theorem widths_of_accumulate {factors : List (Option (LinearFactor K))} {slots : SlotTable} {ws : List Nat}
    (h : BlockMatrix.accumulate factors slots (Variable.counts ws) = .ok M) : M.widths = ws ++ [1] := by
  obtain ⟨table, M₀, -, -, hM, hfold⟩ := accumulate_eq_ok h
  obtain ⟨given, hg, -, hw, -⟩ := ofCounts_eq_ok hM
  have hlast : M₀.widths.getLast? = some 1 := by rw [hw, List.getLast?_concat]
  rw [Variable.truncate_counts] at hg
  cases hg
  rw [(full_foldFactors hlast hfold).1, hw, List.map_map]
  congr 1
  exact List.map_id ws

/-- The information matrix of a graph is assembled from its factors in the slots of the ordering, with
a block of its width for each unknown. -/
theorem hessian_eq_ok (h : (g.hessian values ordering).value = .ok M) :
    ∃ (factors : List (LinearFactor K)) (kinds : List VariableKind), (g.linearize values).value = .ok factors ∧
      (ordering.getD g.keys).map (fun key => (g.types.find? key).bind VariableKind.ofName?) = kinds.map some ∧
      M.widths = kinds.map VariableKind.width ++ [1] ∧
      BlockMatrix.accumulate (factors.map some) (.ordering (ordering.getD g.keys))
        (Variable.counts (kinds.map VariableKind.width)) = .ok M := by
  obtain ⟨table, ws, factors, ht, hw, hf, hM⟩ := hessian_eq_ok_iff.mp h
  have ht : SlotTable.number Table.empty 0 (ordering.getD g.keys) = .ok table := ht
  obtain ⟨-, -, hkeys, -, -⟩ := SlotTable.find?_number ht
  have hkeys : table.keys = ordering.getD g.keys := hkeys
  rw [hkeys] at hw
  obtain ⟨kinds, hkinds, rfl⟩ := Variable.widths_eq_ok hw
  refine ⟨factors, kinds, hf, hkinds, widths_of_accumulate hM, ?_⟩
  rw [BlockMatrix.accumulate, SlotTable.toTable, ht]
  exact hM

/-- A factor of a graph that was assembled has terms and no model. -/
theorem plain_of_hessian {factors : List (LinearFactor K)} {slots : SlotTable} {counts : List Count}
    (hf : (g.linearize values).value = .ok factors)
    (hM : BlockMatrix.accumulate (factors.map some) slots counts = .ok M) :
    ∀ f ∈ factors, f.isEmpty = false ∧ f.model = none := by
  intro f hmem
  obtain ⟨table, M₀, -, hadd⟩ := addTo_of_accumulate hM
  obtain ⟨o, -, ho⟩ := exists_of_mem_linearize hf hmem
  obtain ⟨hne, hmodel⟩ := Observation.parts_of_linearize ho
  exact ⟨hne, LinearFactor.model_of_addTo hne hmodel (hadd f hmem)⟩

/-- Twice the errors of observations add up to the squared lengths of their factors' right-hand
sides. -/
theorem exists_errors {observations : List (Observation K)} {linear : List (Option (LinearFactor K))}
    (h : observations.map (fun o => (o.linearize values).value) = linear.map .ok) (total : K) :
    ∃ e, observations.foldlM (fun total o => (o.error values).value.map fun e => total + e) total = .ok e ∧
      2 * e = 2 * total + ((linear.filterMap id).map fun f => f.rhs.dot f.rhs).sum := by
  induction observations generalizing linear total with
  | nil =>
    cases linear with
    | nil => exact ⟨total, rfl, (add_zero _).symm⟩
    | cons out linear => cases h
  | cons o rest ih =>
    cases linear with
    | nil => cases h
    | cons out linear =>
      simp only [List.map_cons, List.cons.injEq] at h
      obtain ⟨e, he, hsum⟩ := Observation.error_of_linearize h.1
      obtain ⟨e', he', hsum'⟩ := ih h.2 (total + e)
      refine ⟨e', ?_, ?_⟩
      · rw [List.foldlM_cons, he]
        exact he'
      · rw [hsum', mul_add, hsum]
        cases out <;> simp [add_assoc]

theorem constantTerm_of_hessian (h : (g.hessian values ordering).value = .ok M) :
    ∃ e, (g.error values).value = .ok e ∧ M.constantTerm = .ok (2 * e) := by
  obtain ⟨factors, kinds, hf, -, -, hM⟩ := hessian_eq_ok h
  obtain ⟨l, -, -, hag⟩ := layout_of_accumulate hM
  have hplain := plain_of_hessian hf hM
  obtain ⟨linear, hlinear, rfl⟩ := linearize_eq_ok.mp hf
  obtain ⟨e, he, hsum⟩ := exists_errors hlinear 0
  refine ⟨e, (value_error g values).trans he, ?_⟩
  have hcorner := LinearFactor.normalSum_corner hag (Solver.agreesOn_of_assembled hM hag) hplain
  have hfull := congrFun (congrFun (Solver.full_of_assembled hM) hag.final) hag.final
  have hget : M.full.get l.length l.length = 2 * e := by
    rw [hsum, mul_zero, zero_add, ← hcorner]
    exact hfull
  have horder : M.order - 1 = l.length := by
    rw [order, hag.length, Nat.add_sub_cancel]
  rw [constantTerm_eq hag.last, horder, hget]

/-! ### Observations that count nothing -/

/-- An observation without error can be left out. -/
theorem error_without {types : Table Key String} {before after : List (Observation K)} {o : Observation K}
    (h : (o.error values).value = .ok 0) :
    ((⟨types, before ++ after⟩ : Graph K).error values).value =
      ((⟨types, before ++ o :: after⟩ : Graph K).error values).value := by
  rw [value_error, value_error, List.foldlM_append, List.foldlM_append]
  congr 1
  funext total
  rw [List.foldlM_cons, h]
  show _ = List.foldlM _ (total + 0) after
  rw [add_zero]

/-- An observation that is switched off or not seen can be left out of the information matrix. -/
theorem hessian_without {types : Table Key String} {before after : List (Observation K)} {o : Observation K}
    (ho : o.enabled = false ∨ o.Unseen values)
    (h : ((⟨types, before ++ o :: after⟩ : Graph K).hessian values ordering).value = .ok M) :
    ∃ N, ((⟨types, before ++ after⟩ : Graph K).hessian values ordering).value = .ok N ∧
      N.information = M.information ∧ N.linearTerm = M.linearTerm ∧ N.constantTerm = M.constantTerm := by
  obtain ⟨table, ws, factors, ht, hw, hf, hM⟩ := hessian_eq_ok_iff.mp h
  obtain ⟨linear, hlinear, rfl⟩ := linearize_eq_ok.mp hf
  -- The factors are those before it, its own, if it has one, and those after it.
  have hsplit : linear.map Except.ok = before.map (fun o => (o.linearize values).value) ++
      (o :: after).map (fun o => (o.linearize values).value) := by
    rw [← hlinear, List.map_append]
  obtain ⟨linear₁, linear₂, rfl, h₁, h₂⟩ := List.map_eq_append_iff.mp hsplit
  cases linear₂ with
  | nil => cases h₂
  | cons out linear₂ =>
    simp only [List.map_cons, List.cons.injEq] at h₂
    have hf' : ((⟨types, before ++ after⟩ : Graph K).linearize values).value =
        .ok ((linear₁ ++ linear₂).filterMap id) := by
      refine linearize_eq_ok.mpr ⟨linear₁ ++ linear₂, ?_, rfl⟩
      rw [List.map_append, List.map_append, h₁, h₂.2]
    have hs : ((linear₁ ++ linear₂).filterMap id).Sublist ((linear₁ ++ out :: linear₂).filterMap id) :=
      List.Sublist.filterMap id (List.Sublist.append_left (List.sublist_cons_self out linear₂) linear₁)
    have hzero : ∀ f, out = some f → f.IsZero := by
      rintro f rfl
      rcases ho with hoff | hu
      · cases h₂.1.trans (Observation.value_linearize_of_disabled hoff values)
      · exact Observation.linearize_unseen hu h₂.1.symm
    obtain ⟨N, hN, hNw, hNfull⟩ := accumulate_sublist hs
      (fun slots widths => LinearFactor.normalSum_insert_zero slots widths hzero linear₁ linear₂) hM
    have hlast : M.widths.getLast? = some 1 := by rw [widths_of_accumulate hM, List.getLast?_concat]
    exact ⟨N, hessian_eq_ok_iff.mpr ⟨table, ws, _, ht, hw, hf', hN⟩, parts_congr hlast hNw hNfull⟩

/-- **Error and information matrix agree.** Where there is an information matrix of an ordering, there is
an error, and the constant term is twice that. The blocks have the widths of the unknowns in the order
of the ordering, and the last is one wide. An observation that is switched off, or does not see its
landmark, has no error, and without it the error, the information, the linear and the constant term are
the same. -/
theorem hessian_consistent (h : (g.hessian values ordering).value = .ok M) :
    (∃ e, (g.error values).value = .ok e ∧ M.constantTerm = .ok (2 * e)) ∧
      (∃ kinds : List VariableKind,
        (ordering.getD g.keys).map (fun key => (g.types.find? key).bind VariableKind.ofName?) = kinds.map some ∧
        M.widths = kinds.map VariableKind.width ++ [1]) ∧
      ∀ before o after, g.observations = before ++ o :: after → o.enabled = false ∨ o.Unseen values →
        (o.error values).value = .ok 0 ∧
        ((⟨g.types, before ++ after⟩ : Graph K).error values).value = (g.error values).value ∧
        ∃ N, ((⟨g.types, before ++ after⟩ : Graph K).hessian values ordering).value = .ok N ∧
          N.information = M.information ∧ N.linearTerm = M.linearTerm ∧ N.constantTerm = M.constantTerm := by
  obtain ⟨factors, kinds, hf, hkinds, hwidths, -⟩ := hessian_eq_ok h
  refine ⟨constantTerm_of_hessian h, ⟨kinds, hkinds, hwidths⟩, fun before o after hobs ho => ?_⟩
  obtain ⟨types, observations⟩ := g
  cases hobs
  obtain ⟨linear, hlinear, -⟩ := linearize_eq_ok.mp hf
  have hmem : (o.linearize values).value ∈ linear.map Except.ok := by
    rw [← hlinear]
    exact List.mem_map_of_mem (List.mem_append_right before (List.mem_cons_self ..))
  obtain ⟨out, -, hout⟩ := List.mem_map.mp hmem
  have hzero := Observation.error_eq_zero ho hout.symm
  exact ⟨hzero, error_without hzero, hessian_without ho h⟩

/-- A pixel of a landmark in camera 0, with one deviation for each of its numbers. -/
def pixelOf (landmark : Nat) (enabled : Bool) : Observation ℚ where
  kind := .cameraLandmark
  measured := Vec.ofFn 2 fun i => i
  noise := some (.diagonal (Vec.ofFn 2 fun i => i + 2))
  keys := [.number 0, .number landmark]
  enabled := enabled
  measured_size := rfl
  keys_length := rfl
  noise_rows := by decide

/-- Landmark 1 is seen, landmark 2 lies behind the camera, and a second pixel of landmark 1 is switched
off. -/
def mixedPixels : Graph ℚ :=
  ⟨Table.ofList [(.number 0, "camera"), (.number 1, "landmark3d"), (.number 2, "landmark3d")],
    [pixelOf 1 true, pixelOf 2 true, pixelOf 1 false]⟩

/-- A camera at the origin, a landmark in front of it and one behind it. -/
def onBothSides : Table Key (Tensor ℚ) :=
  Table.ofList [(.number 0, .ofVec (Vec.ofFn 11 fun i => if i < 6 then 0 else 1)),
    (.number 1, .ofVec (Vec.ofFn 3 fun i => i + 1)), (.number 2, .ofVec (Vec.ofFn 3 fun i => 1 - i))]

theorem hessian_consistent_mixedPixels :
    ∃ (M : BlockMatrix ℚ) (e : ℚ), (mixedPixels.hessian onBothSides none).value = .ok M ∧
      (mixedPixels.error onBothSides).value = .ok e ∧ M.constantTerm = .ok (2 * e) ∧ 0 < e ∧
      M.widths = [11, 3, 3, 1] ∧ ((pixelOf 2 true).error onBothSides).value = .ok 0 ∧
      ((pixelOf 1 false).error onBothSides).value = .ok 0 := by
  have hok : (mixedPixels.hessian onBothSides none).value.toOption.isSome = true := by decide +kernel
  obtain ⟨M, hM⟩ := Option.isSome_iff_exists.mp hok
  have hM := toOption_eq_some.mp hM
  obtain ⟨⟨e, he, hc⟩, ⟨kinds, hkinds, hwidths⟩, hleft⟩ := hessian_consistent hM
  have hpos : (mixedPixels.error onBothSides).value.toOption.all (fun e => decide (0 < e)) = true := by
    decide +kernel
  have hunseen : (pixelOf 2 true).Unseen onBothSides := by
    have hvalid : (do
        let vs ← (pixelOf 2 true).estimates onBothSides
        let p ← Observation.predict .cameraLandmark vs
        return p.valid).toOption = some false := by decide +kernel
    obtain ⟨vs, hvs, h⟩ := bind_eq_ok.mp (toOption_eq_some.mp hvalid)
    obtain ⟨p, hp, h⟩ := bind_eq_ok.mp h
    exact ⟨vs, p, hvs, hp, pure_eq_ok.mp h⟩
  refine ⟨M, e, hM, he, hc, ?_, ?_, (hleft [_] _ [_] rfl (.inr hunseen)).1, (hleft [_, _] _ [] rfl (.inl rfl)).1⟩
  · rw [he] at hpos
    exact of_decide_eq_true hpos
  · have hkinds : kinds.map some = [VariableKind.camera, .landmark, .landmark].map some := by
      rw [← hkinds]
      decide +kernel
    rw [hwidths, List.map_injective_iff.mpr (Option.some_injective _) hkinds]
    rfl

end Graph
end BundleAdjustment
