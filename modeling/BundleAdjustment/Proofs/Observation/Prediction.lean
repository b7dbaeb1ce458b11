import BundleAdjustment.Observation
import BundleAdjustment.Proofs.Linear.Deviations
import BundleAdjustment.Proofs.Notes
import Mathlib.Data.List.Basic

/-!
What an observation predicts from its estimates.

Estimates of the right lengths can always be projected (`predict_sized`), unless the observation is
of no particular kind. A prediction that there is has the shape of its observation, whatever the
estimates were: two numbers, and for every unknown a matrix of two rows and as many columns as a
step on the unknown has numbers (`predict_shaped`). The residual and its derivatives keep that
shape, whether or not the landmark can be seen (`evaluate_shaped`).
-/
namespace BundleAdjustment

theorem Key.label_eq_error {key : Key} {e : Fault} (h : key.label = .error e) :
    e = .tagOverflow ∨ e = .tagRange := by
  unfold label labelBy at h
  split at h
  · split at h
    · cases h
    · split at h
      · cases h
        exact .inl rfl
      · split at h
        · cases h
          exact .inr rfl
        · split at h <;> cases h
  · cases h

namespace Projection
variable {α : Type} [Scalar α]

/-- Two rows for the pixel, and the columns of a pose, a point and a calibration. -/
structure Shaped (P : Projection α) : Prop where
  pixel : P.pixel.size = measurementWidth
  byPose : P.byPose.rows = measurementWidth ∧ P.byPose.cols = poseWidth
  byPoint : P.byPoint.rows = measurementWidth ∧ P.byPoint.cols = pointWidth
  byCalibration : P.byCalibration.rows = measurementWidth ∧ P.byCalibration.cols = calibrationWidth

theorem shaped_ofPoint (pose : Pose α) (p : Vec3 α) (k : Calibration α) : (ofPoint pose p k).Shaped := by
  unfold ofPoint
  dsimp only
  split
  · exact ⟨Vec.size_ofFn _ _, ⟨rfl, rfl⟩, ⟨rfl, rfl⟩, ⟨rfl, rfl⟩⟩
  · exact ⟨Vec.size_ofFn _ _, ⟨rfl, rfl⟩, ⟨rfl, rfl⟩, ⟨rfl, rfl⟩⟩

end Projection

/-- The first six numbers of a vector as a pose. -/
def Pose.ofVec {α : Type} [Scalar α] (v : Vec α) : Pose α :=
  ⟨⟨v.get 0, v.get 1, v.get 2⟩, ⟨v.get 3, v.get 4, v.get 5⟩⟩

namespace Tensor
variable {α : Type} [Scalar α]

theorem project_ofVec {v p k : Vec α} (hv : v.size = poseWidth) (hp : p.size = pointWidth)
    (hk : k.size = calibrationWidth) :
    (ofVec v).project (ofVec p) (ofVec k) = .ok (Projection.ofPoint (Pose.ofVec v)
      ⟨p.get 0, p.get 1, p.get 2⟩ ⟨k.get 0, k.get 1, k.get 2, k.get 3, k.get 4⟩) := by
  rw [project, shape_ofVec, shape_ofVec, shape_ofVec, hv, hp, hk, if_pos ⟨rfl, rfl, rfl⟩]
  rfl

/-- Whatever is projected is a point's projection. -/
theorem project_eq_ok {pose point calibration : Tensor α} {P : Projection α}
    (h : pose.project point calibration = .ok P) : P.Shaped := by
  unfold project at h
  split at h
  · cases h
    exact Projection.shaped_ofPoint _ _ _
  · cases h

end Tensor

namespace Observation
variable {α : Type}

/-- The arrays of a list of kinds have the lengths of their estimates. -/
def Sized (kinds : List VariableKind) (values : List (Tensor α)) : Prop :=
  values.map Tensor.shape = kinds.map fun k => [k.width]

theorem Sized.length {kinds : List VariableKind} {values : List (Tensor α)} (h : Sized kinds values) :
    values.length = kinds.length := by
  simpa using congrArg List.length h

/-- Two rows, and the columns of each unknown. -/
structure Shaped (kind : ObservationKind) (r : Vec α) (jacobians : List (Mat α)) : Prop where
  rows : r.size = measurementWidth
  jacobians : jacobians.map (fun J => (J.rows, J.cols)) =
    kind.unknowns.map fun k => (measurementWidth, k.width)

theorem Shaped.length {kind : ObservationKind} {r : Vec α} {jacobians : List (Mat α)}
    (h : Shaped kind r jacobians) : jacobians.length = kind.unknowns.length := by
  simpa using congrArg List.length h.jacobians

theorem Shaped.rows_of_mem {kind : ObservationKind} {r : Vec α} {jacobians : List (Mat α)}
    (h : Shaped kind r jacobians) {J : Mat α} (hJ : J ∈ jacobians) : J.rows = measurementWidth := by
  have hmem : (J.rows, J.cols) ∈ kind.unknowns.map fun k => (measurementWidth, k.width) :=
    h.jacobians ▸ List.mem_map_of_mem (f := fun J : Mat α => (J.rows, J.cols)) hJ
  obtain ⟨k, -, hk⟩ := List.mem_map.mp hmem
  exact (congrArg Prod.fst hk).symm

variable [Scalar α]

/-! ### Predictions -/

theorem predict_camera {v p : Vec α} (hv : v.size = cameraWidth) (hp : p.size = pointWidth) :
    ∃ k, predict .cameraLandmark [.ofVec v, .ofVec p] = .ok
      (let P := Projection.ofPoint (Pose.ofVec v) ⟨p.get 0, p.get 1, p.get 2⟩ k
       ⟨P.pixel, [P.byPose.beside P.byCalibration, P.byPoint], P.valid⟩) := by
  have hpose : (v.slice 0 poseWidth).size = poseWidth := by
    rw [Vec.slice, Vec.size_ofFn, hv]
    rfl
  have hcal : (v.slice poseWidth cameraWidth).size = calibrationWidth := by
    rw [Vec.slice, Vec.size_ofFn, hv]
    rfl
  have hget : ∀ i, i < poseWidth → (v.slice 0 poseWidth).get i = v.get i := by
    intro i hi
    rw [Vec.slice, Vec.get_ofFn, Nat.zero_add]
    rw [hv]
    exact hi
  have hread : Pose.ofVec (v.slice 0 poseWidth) = Pose.ofVec v := by
    unfold Pose.ofVec
    rw [hget 0, hget 1, hget 2, hget 3, hget 4, hget 5] <;> decide
  have hproj := Tensor.project_ofVec hpose hp hcal
  rw [hread] at hproj
  refine ⟨⟨(v.slice poseWidth cameraWidth).get 0, (v.slice poseWidth cameraWidth).get 1,
    (v.slice poseWidth cameraWidth).get 2, (v.slice poseWidth cameraWidth).get 3,
    (v.slice poseWidth cameraWidth).get 4⟩, ?_⟩
  rw [predict, Tensor.splitCamera, Tensor.slice_ofVec, Tensor.slice_ofVec]
  simp only [ok_bind, pure_bind, hproj]
  rfl

theorem predict_pose {v p k : Vec α} (hv : v.size = poseWidth) (hp : p.size = pointWidth)
    (hk : k.size = calibrationWidth) :
    ∃ k', predict .poseLandmarkCalibration [.ofVec v, .ofVec p, .ofVec k] = .ok
      (let P := Projection.ofPoint (Pose.ofVec v) ⟨p.get 0, p.get 1, p.get 2⟩ k'
       ⟨P.pixel, [P.byPose, P.byPoint, P.byCalibration], P.valid⟩) := by
  refine ⟨⟨k.get 0, k.get 1, k.get 2, k.get 3, k.get 4⟩, ?_⟩
  rw [predict, Tensor.project_ofVec hv hp hk]
  rfl

/-- A prediction has the shape of its observation. -/
theorem predict_shaped {kind : ObservationKind} {values : List (Tensor α)} {p : Prediction α}
    (h : predict kind values = .ok p) : Shaped kind p.pixel p.jacobians := by
  unfold predict at h
  split at h
  · obtain ⟨⟨pose, calibration⟩, -, h⟩ := bind_eq_ok.mp h
    obtain ⟨P, hP, h⟩ := bind_eq_ok.mp h
    have hs := Tensor.project_eq_ok hP
    cases h
    refine ⟨hs.pixel, ?_⟩
    show [(P.byPose.rows, P.byPose.cols + P.byCalibration.cols), (P.byPoint.rows, P.byPoint.cols)] = _
    rw [hs.byPose.1, hs.byPose.2, hs.byCalibration.2, hs.byPoint.1, hs.byPoint.2]
    rfl
  · obtain ⟨P, hP, h⟩ := bind_eq_ok.mp h
    have hs := Tensor.project_eq_ok hP
    cases h
    refine ⟨hs.pixel, ?_⟩
    show [(P.byPose.rows, P.byPose.cols), (P.byPoint.rows, P.byPoint.cols),
      (P.byCalibration.rows, P.byCalibration.cols)] = _
    rw [hs.byPose.1, hs.byPose.2, hs.byCalibration.1, hs.byCalibration.2, hs.byPoint.1, hs.byPoint.2]
    rfl
  · cases h

omit [Scalar α] in
/-- Estimates of the right lengths are those of a camera and a landmark, or of a pose, a landmark and
a calibration, or there are none. -/
theorem Sized.cases {kind : ObservationKind} {values : List (Tensor α)} (h : Sized kind.unknowns values) :
    (∃ v p : Vec α, kind = .cameraLandmark ∧ values = [.ofVec v, .ofVec p] ∧ v.size = cameraWidth ∧
        p.size = pointWidth) ∨
      (∃ v p k : Vec α, kind = .poseLandmarkCalibration ∧ values = [.ofVec v, .ofVec p, .ofVec k] ∧
        v.size = poseWidth ∧ p.size = pointWidth ∧ k.size = calibrationWidth) ∨
      kind = .abstract ∧ values = [] := by
  cases kind with
  | cameraLandmark =>
    obtain ⟨a, b, rfl⟩ := List.length_eq_two.mp h.length
    simp only [Sized, ObservationKind.unknowns, List.map_cons, List.map_nil, List.cons.injEq] at h
    obtain ⟨v, hv, rfl⟩ := Tensor.eq_ofVec h.1
    obtain ⟨p, hp, rfl⟩ := Tensor.eq_ofVec h.2.1
    exact .inl ⟨v, p, rfl, rfl, hv, hp⟩
  | poseLandmarkCalibration =>
    obtain ⟨a, b, c, rfl⟩ := List.length_eq_three.mp h.length
    simp only [Sized, ObservationKind.unknowns, List.map_cons, List.map_nil, List.cons.injEq] at h
    obtain ⟨v, hv, rfl⟩ := Tensor.eq_ofVec h.1
    obtain ⟨p, hp, rfl⟩ := Tensor.eq_ofVec h.2.1
    obtain ⟨k, hk, rfl⟩ := Tensor.eq_ofVec h.2.2.1
    exact .inr (.inl ⟨v, p, k, rfl, rfl, hv, hp, hk⟩)
  | abstract =>
    exact .inr (.inr ⟨rfl, List.map_eq_nil_iff.mp h⟩)

/-- Estimates of the right lengths can be projected, if there is a projection. -/
theorem predict_sized {kind : ObservationKind} {values : List (Tensor α)} (h : Sized kind.unknowns values) :
    kind = .abstract ∧ predict kind values = .error .noProjection ∨ ∃ p, predict kind values = .ok p := by
  obtain ⟨v, p, rfl, rfl, hv, hp⟩ | ⟨v, p, k, rfl, rfl, hv, hp, hk⟩ | ⟨rfl, rfl⟩ := h.cases
  · obtain ⟨k, hk⟩ := predict_camera hv hp
    exact .inr ⟨_, hk⟩
  · obtain ⟨k', hk'⟩ := predict_pose hv hp hk
    exact .inr ⟨_, hk'⟩
  · exact .inl ⟨rfl, rfl⟩

/-! ### Residuals -/

omit [Scalar α] in
theorem behindCamera_eq_error {o : Observation α} {e : Fault}
    (h : o.behindCamera = .error e) : e = .tagOverflow ∨ e = .tagRange := by
  rcases bind_eq_error.mp h with h | ⟨_, -, h⟩
  · exact Key.label_eq_error h
  · rcases bind_eq_error.mp h with h | ⟨_, -, h⟩
    · exact Key.label_eq_error h
    · cases h

/-- The residual and its derivatives from a prediction. -/
def residual (o : Observation α) (p : Prediction α) : Noted α (Vec α × List (Mat α)) := do
  if p.valid then return (p.pixel - o.measured, p.jacobians)
  else
    Noted.note (← o.behindCamera)
    return (Vec.zeros measurementWidth, p.jacobians.map fun J => Mat.zeros J.rows J.cols)

theorem evaluate_of_length {o : Observation α} {values : List (Tensor α)}
    (h : values.length = o.keys.length) :
    o.evaluate values = (liftM (predict o.kind values) >>= o.residual : Noted α _) := by
  simp only [evaluate, ne_eq, h, not_true_eq_false, if_false]
  rfl

theorem blind_residual (o : Observation α) (p : Prediction α) : (o.residual p).Blind := by
  unfold residual
  split
  · exact Noted.blind_pure _
  · exact (Noted.blind_lift _).bind fun e => (Noted.blind_note e).bind fun _ => Noted.blind_pure _

theorem evaluate_of_length_ne {o : Observation α} {values : List (Tensor α)}
    (h : values.length ≠ o.keys.length) :
    o.evaluate values = throw (.valueCount o.kind.name o.keys.length values.length) := by
  simp only [evaluate, ne_eq, h, not_false_eq_true, if_true]
  rfl

theorem blind_evaluate (o : Observation α) (values : List (Tensor α)) : (o.evaluate values).Blind := by
  by_cases h : values.length = o.keys.length
  · rw [evaluate_of_length h]
    exact (Noted.blind_lift _).bind o.blind_residual
  · rw [evaluate_of_length_ne h]
    exact Noted.blind_throw _

theorem value_evaluate {o : Observation α} {values : List (Tensor α)} (h : values.length = o.keys.length) :
    (o.evaluate values).value = predict o.kind values >>= fun p => (o.residual p).value := by
  rw [evaluate_of_length h, Noted.value_bind o.blind_residual, Noted.value_lift]

theorem value_residual_of_valid (o : Observation α) {p : Prediction α} (h : p.valid = true) :
    (o.residual p).value = .ok (p.pixel - o.measured, p.jacobians) := by
  rw [residual, if_pos h]
  rfl

/-- What is not seen counts nothing, if the warning can name it. -/
theorem value_residual_of_not_valid (o : Observation α) {p : Prediction α} (h : p.valid = false) :
    (o.residual p).value = o.behindCamera.map fun _ =>
      (Vec.zeros measurementWidth, p.jacobians.map fun J => Mat.zeros J.rows J.cols) := by
  rw [residual, if_neg (by rw [h]; exact Bool.false_ne_true)]
  cases o.behindCamera <;> rfl

theorem Shaped.zeros {kind : ObservationKind} {r : Vec α} {jacobians : List (Mat α)}
    (h : Shaped kind r jacobians) :
    Shaped kind (Vec.zeros measurementWidth : Vec α) (jacobians.map fun J => Mat.zeros J.rows J.cols) := by
  refine ⟨Vec.size_ofFn _ _, ?_⟩
  rw [List.map_map, ← h.jacobians]
  rfl

/-- The residual and its derivatives have the shape of the prediction. -/
theorem evaluate_shaped {o : Observation α} {values : List (Tensor α)} {r : Vec α}
    {jacobians : List (Mat α)} (hlen : values.length = o.keys.length)
    (h : (o.evaluate values).value = .ok (r, jacobians)) : Shaped o.kind r jacobians := by
  rw [value_evaluate hlen] at h
  obtain ⟨p, hp, h⟩ := bind_eq_ok.mp h
  have hs := predict_shaped hp
  cases hv : p.valid with
  | true =>
    rw [value_residual_of_valid o hv] at h
    cases h
    exact ⟨(Vec.size_sub _ _).trans hs.rows, hs.jacobians⟩
  | false =>
    rw [value_residual_of_not_valid o hv] at h
    cases hb : o.behindCamera with
    | error e =>
      rw [hb] at h
      cases h
    | ok e =>
      rw [hb] at h
      cases h
      exact hs.zeros

/-- At estimates of the right lengths there is a residual, unless there is no projection or the
warning cannot be written. -/
theorem evaluate_sized {o : Observation α} {values : List (Tensor α)} (h : Sized o.kind.unknowns values) :
    o.kind = .abstract ∧ (o.evaluate values).value = .error .noProjection ∨
      (∃ e, o.behindCamera = .error e ∧ (o.evaluate values).value = .error e) ∨
      ∃ r jacobians, (o.evaluate values).value = .ok (r, jacobians) := by
  rw [value_evaluate (h.length.trans o.keys_length.symm)]
  obtain ⟨hk, hp⟩ | ⟨p, hp⟩ := predict_sized h
  · rw [hp]
    exact .inl ⟨hk, rfl⟩
  · rw [hp, ok_bind]
    cases hv : p.valid with
    | true => exact .inr (.inr ⟨_, _, value_residual_of_valid o hv⟩)
    | false =>
      rw [value_residual_of_not_valid o hv]
      cases hb : o.behindCamera with
      | error e => exact .inr (.inl ⟨e, rfl, rfl⟩)
      | ok e => exact .inr (.inr ⟨_, _, rfl⟩)

end Observation
end BundleAdjustment
