import BundleAdjustment.Proofs.Geometry.Similarity
import BundleAdjustment.Proofs.Linear.Scatter
import BundleAdjustment.Proofs.Observation.Weighting

/-!
An observation does not see where the whole scene is.

A first-order step of the world is a step of every unknown: six numbers of a pose, the same and five
zeros of a camera, three of a landmark, and zeros of a calibration. The derivatives of one
observation, applied to the steps of its unknowns, add up to zero (`step_evaluate`). The noise only
scales the rows, so the same is true of its factor (`step_fold`).
-/
namespace BundleAdjustment
open Layout
variable {K : Type} [ExactScalar K]

/-! ### Steps of unknowns -/

/-- The step of one unknown, from its estimate. -/
def Similarity.step (σ : Similarity K) : VariableKind → Vec K → Vec K
  | .pose, x => (σ.ofPose (.ofVec x)).toVec
  | .camera, x => (σ.ofPose (.ofVec x)).toVec.append (Vec.zeros calibrationWidth)
  | .landmark, x => (σ.ofPoint ⟨x.get 0, x.get 1, x.get 2⟩).toVec
  | .calibration, _ => Vec.zeros calibrationWidth

theorem Similarity.size_step (σ : Similarity K) (kind : VariableKind) (x : Vec K) :
    (σ.step kind x).size = kind.width := by
  cases kind with
  | pose => exact Pose.size_toVec _
  | camera =>
    show ((σ.ofPose (.ofVec x)).toVec.append (Vec.zeros calibrationWidth)).size = _
    rw [Vec.size_append, Pose.size_toVec, Vec.size_zeros]
    rfl
  | landmark => exact Vec3.size_toVec _
  | calibration => exact Vec.size_zeros _

def Similarity.steps (σ : Similarity K) (kinds : List VariableKind) (values : List (Tensor K)) : List (Vec K) :=
  List.zipWith (fun kind t => σ.step kind t.flatten) kinds values

namespace Observation

/-- What derivatives, one by each unknown, make of steps of the unknowns. -/
def change (jacobians : List (Mat K)) (steps : List (Vec K)) (i : Nat) : K :=
  ((jacobians.zip steps).map fun e => (e.1.mulVec e.2).get i).sum

theorem change_zeros (jacobians : List (Mat K)) (steps : List (Vec K)) (i : Nat) :
    change (jacobians.map fun J => Mat.zeros J.rows J.cols) steps i = 0 := by
  refine List.sum_eq_zero fun v hv => ?_
  obtain ⟨e, he, rfl⟩ := List.mem_map.mp hv
  obtain ⟨J, -, hJ⟩ := List.mem_map.mp (List.of_mem_zip he).1
  rw [← hJ]
  exact Mat.get_zeros_mulVec _ _ _ _

/-- A prediction does not see a step of the world. -/
theorem step_predict (σ : Similarity K) {kind : ObservationKind} {values : List (Tensor K)} {P : Prediction K}
    (hs : Sized kind.unknowns values) (h : predict kind values = .ok P) (i : Nat) :
    change P.jacobians (σ.steps kind.unknowns values) i = 0 := by
  obtain ⟨v, p, rfl, rfl, hv, hp⟩ | ⟨v, p, k, rfl, rfl, hv, hp, hk⟩ | ⟨rfl, rfl⟩ := hs.cases
  · obtain ⟨k, hk⟩ := predict_camera hv hp
    cases hk.symm.trans h
    have hshape := Projection.shaped_ofPoint (Pose.ofVec v) ⟨p.get 0, p.get 1, p.get 2⟩ k
    have hcancel := Projection.step_ofPoint σ (Pose.ofVec v) ⟨p.get 0, p.get 1, p.get 2⟩ k i
    show (_ :: [_] : List K).sum = 0
    rw [List.sum_cons, List.sum_singleton]
    show (Mat.mulVec _ (Vec.append _ _)).get i + _ = 0
    rw [Mat.mulVec_beside_zeros]
    · exact hcancel
    · rw [hshape.byPose.1, hshape.byCalibration.1]
    · rw [Pose.size_toVec, hshape.byPose.2]
  · obtain ⟨k', hk'⟩ := predict_pose hv hp hk
    cases hk'.symm.trans h
    have hcancel := Projection.step_ofPoint σ (Pose.ofVec v) ⟨p.get 0, p.get 1, p.get 2⟩ k' i
    show (_ :: _ :: [_] : List K).sum = 0
    rw [List.sum_cons, List.sum_cons, List.sum_singleton]
    show _ + (_ + (Mat.mulVec _ (Vec.zeros _)).get i) = 0
    rw [Mat.get_mulVec_zeros, add_zero]
    exact hcancel
  · cases h

/-- Neither do the derivatives of a residual, whether or not the landmark is seen. -/
theorem step_evaluate (σ : Similarity K) {o : Observation K} {values : List (Tensor K)} {r : Vec K}
    {jacobians : List (Mat K)} (hs : Sized o.kind.unknowns values)
    (h : (o.evaluate values).value = .ok (r, jacobians)) (i : Nat) :
    change jacobians (σ.steps o.kind.unknowns values) i = 0 := by
  rw [value_evaluate (hs.length.trans o.keys_length.symm)] at h
  obtain ⟨P, hP, h⟩ := bind_eq_ok.mp h
  cases hv : P.valid with
  | true =>
    rw [value_residual_of_valid o hv] at h
    cases h
    exact step_predict σ hs hP i
  | false =>
    rw [value_residual_of_not_valid o hv] at h
    cases hb : o.behindCamera with
    | error e =>
      rw [hb] at h
      cases h
    | ok e =>
      rw [hb] at h
      cases h
      exact change_zeros _ _ _

/-- Neither does the factor of the residual. -/
theorem step_fold (σ : Similarity K) {o : Observation K} {values : List (Tensor K)} {r : Vec K}
    {jacobians : List (Mat K)} {f : LinearFactor K} (hs : Sized o.kind.unknowns values)
    (hr : (o.evaluate values).value = .ok (r, jacobians)) (hf : o.fold r jacobians = .ok f) {step : Key → Vec K}
    (hsteps : o.keys.map step = σ.steps o.kind.unknowns values) {k : Nat} (hk : k < f.rows) :
    (f.terms.entries.map fun t => (t.2.mulVec (step t.1)).get k).sum = 0 := by
  have hshape := evaluate_shaped (hs.length.trans o.keys_length.symm) hr
  obtain ⟨hterms, hrhs, hinto, -⟩ := fold_scaling hshape hf
  have hk : k < o.scaling.size := by
    rwa [LinearFactor.rows, hrhs, Vec.size_neg, RowScaling.vec, Vec.size_ofFn] at hk
  have hterm : ∀ e ∈ jacobians.zip o.keys, ((o.scaling.mat e.1).mulVec (step e.2)).get k =
      (e.1.mulVec (step e.2)).get (o.scaling.source k) * o.scaling.scale k := by
    intro e he
    have hrows := hshape.rows_of_mem (List.of_mem_zip he).1
    exact RowScaling.get_mat_mulVec (hrows.symm ▸ hinto) _ hk
  calc (f.terms.entries.map fun t => (t.2.mulVec (step t.1)).get k).sum
      = ((jacobians.zip o.keys).map fun e => ((o.scaling.mat e.1).mulVec (step e.2)).get k).sum := by
        rw [hterms, List.zip_map_right, List.map_map, ← List.zip_swap, List.map_map]
        rfl
    _ = ((jacobians.zip o.keys).map fun e =>
          (e.1.mulVec (step e.2)).get (o.scaling.source k) * o.scaling.scale k).sum := by
        rw [List.map_congr_left hterm]
    _ = change jacobians (o.keys.map step) (o.scaling.source k) * o.scaling.scale k := by
        rw [List.sum_map_mul_right, change, List.zip_map_right, List.map_map]
        rfl
    _ = 0 := by rw [hsteps, step_evaluate σ hs hr, zero_mul]

end Observation
end BundleAdjustment
