import BundleAdjustment.Proofs.Observation.Weighting
import BundleAdjustment.Proofs.Geometry.Similarity

/-!
Observations whose landmark is not in front of the camera.

Such a landmark predicts nothing, and its observation is passed over: the residual and its derivatives
are zeros, and one warning shows the keys of the landmark and of the camera (`run_evaluate_unseen`). From
this it follows that the error is zero and the linear factor has zeros only (`PassedOver`). The warning
needs a label of both keys, and a number has one only if its tag bits are a code point (`Key.Shown`).
Nothing else on the way can fail (`unseen_passedOver`).
-/
namespace BundleAdjustment

namespace Key

/-- A key that can be shown to a person: a text, or a number whose tag bits, if it has any, are a code
point. -/
def Shown : Key → Prop
  | number n => n < codePoints * indexCount
  | name _ => True

instance : DecidablePred Shown
  | number n => inferInstanceAs (Decidable (n < _))
  | name _ => inferInstanceAs (Decidable True)

theorem tagBits_lt_iff {n : Nat} : tagBits n < codePoints ↔ n < codePoints * indexCount := by
  rw [tagBits, Nat.shiftRight_eq_div_pow, indexCount, Nat.shiftLeft_eq, Nat.one_mul]
  exact Nat.div_lt_iff_lt_mul (Nat.two_pow_pos _)

theorem label_of_shown {key : Key} (h : key.Shown) : ∃ l, key.label = .ok l := by
  cases key with
  | name s => exact ⟨_, rfl⟩
  | number n =>
    cases n with
    | negSucc n => exact ⟨_, rfl⟩
    | ofNat n =>
      have htag : tagBits n < codePoints := tagBits_lt_iff.mpr (Int.ofNat_lt.mp h)
      have hword : ¬ largestWord < tagBits n := by
        unfold largestWord
        unfold codePoints at htag
        omega
      unfold label labelBy
      dsimp only
      rw [if_neg hword, if_neg (not_le.mpr htag)]
      split
      · exact ⟨_, rfl⟩
      · split <;> exact ⟨_, rfl⟩

theorem shown_of_label {key : Key} {l : String} (h : key.label = .ok l) : key.Shown := by
  cases key with
  | name s => trivial
  | number n =>
    cases n with
    | negSucc n => exact (Int.negSucc_lt_zero n).trans_le (by decide)
    | ofNat n =>
      refine Int.ofNat_lt.mpr (tagBits_lt_iff.mp ?_)
      unfold label labelBy at h
      dsimp only at h
      split at h
      · rename_i hindex
        exact tagBits_lt_iff.mpr (hindex.trans_le (by decide))
      · split at h
        · cases h
        · split at h
          · cases h
          · rename_i htag
            exact not_le.mp htag

/-- Every other key has tag bits beyond the code points. -/
theorem label_of_not_shown {key : Key} (h : ¬ key.Shown) :
    ∃ e, key.label = .error e ∧ (e = .tagOverflow ∨ e = .tagRange) := by
  cases hl : key.label with
  | ok l => exact absurd (shown_of_label hl) h
  | error e => exact ⟨e, rfl, label_eq_error hl⟩

end Key

namespace Observation
variable {K : Type} [ExactScalar K]

/-- The depth of the landmark in the frame of the camera, from the estimates of both. -/
def depth : List (Tensor K) → K
  | camera :: landmark :: _ =>
    ((Pose.ofVec camera.flatten).motion.toLocal
      ⟨landmark.flatten.get 0, landmark.flatten.get 1, landmark.flatten.get 2⟩).z
  | _ => 0

/-- A matrix of zeros by each unknown, two rows for the pixel and a column for each number of a step. -/
def blanks (kind : ObservationKind) : List (Mat K) :=
  kind.unknowns.map fun k => Mat.zeros measurementWidth k.width

/-! ### What is predicted and warned of -/

theorem invisible_of_depth_le {pose : Pose K} {p : Vec3 K} (k : Calibration K)
    (h : (pose.motion.toLocal p).z ≤ Projection.minDepth) : (Projection.ofPoint pose p k).valid = false := by
  have hlocal : (Projection.localPoint pose p).z = (pose.motion.toLocal p).z := by
    rw [Projection.localPoint_eq]
    rfl
  unfold Projection.ofPoint
  dsimp only
  rw [hlocal, if_neg (not_lt.mpr h)]
  rfl

/-- What is not in front of the camera is predicted as such, with derivatives of the usual shapes. -/
theorem predict_unseen {kind : ObservationKind} {vs : List (Tensor K)} (hkind : kind ≠ .abstract)
    (hs : Sized kind.unknowns vs) (hd : depth vs ≤ Projection.minDepth) :
    ∃ p, predict kind vs = .ok p ∧ p.valid = false ∧
      p.jacobians.map (fun J => Mat.zeros J.rows J.cols) = (blanks kind : List (Mat K)) := by
  have hinvalid : ∃ p, predict kind vs = .ok p ∧ p.valid = false := by
    obtain ⟨v, p, rfl, rfl, hv, hp⟩ | ⟨v, p, k, rfl, rfl, hv, hp, hk⟩ | ⟨rfl, -⟩ := hs.cases
    · obtain ⟨k, hpredict⟩ := predict_camera hv hp
      exact ⟨_, hpredict, invisible_of_depth_le k hd⟩
    · obtain ⟨k', hpredict⟩ := predict_pose hv hp hk
      exact ⟨_, hpredict, invisible_of_depth_le k' hd⟩
    · exact absurd rfl hkind
  obtain ⟨p, hp, hvalid⟩ := hinvalid
  refine ⟨p, hp, hvalid, ?_⟩
  calc p.jacobians.map (fun J => Mat.zeros J.rows J.cols)
      = (p.jacobians.map fun J => (J.rows, J.cols)).map fun s => Mat.zeros s.1 s.2 := by
        rw [List.map_map]
        rfl
    _ = blanks kind := by
        rw [(predict_shaped hp).jacobians, List.map_map]
        rfl

theorem shaped_blanks (kind : ObservationKind) :
    Shaped kind (Vec.zeros measurementWidth : Vec K) (blanks kind) := by
  refine ⟨Vec.size_zeros _, ?_⟩
  rw [blanks, List.map_map]
  rfl

theorem run_residual_of_not_valid (o : Observation K) {p : Prediction K} (h : p.valid = false)
    (notes : List (Event K)) :
    (o.residual p).run.run notes = match o.behindCamera with
      | .ok event =>
        (.ok (Vec.zeros measurementWidth, p.jacobians.map fun J => Mat.zeros J.rows J.cols), notes ++ [event])
      | .error e => (.error e, notes) := by
  rw [residual, if_neg (by rw [h]; exact Bool.false_ne_true)]
  cases o.behindCamera <;> rfl

section Unseen
variable {o : Observation K} {vs : List (Tensor K)} {notes : List (Event K)}

/-- The residual of what is not seen: nothing, and one warning if it can be written. -/
theorem run_evaluate_unseen (hkind : o.kind ≠ .abstract) (hs : Sized o.kind.unknowns vs)
    (hd : depth vs ≤ Projection.minDepth) (notes : List (Event K)) :
    (o.evaluate vs).run.run notes = match o.behindCamera with
      | .ok event => (.ok (Vec.zeros measurementWidth, blanks o.kind), notes ++ [event])
      | .error e => (.error e, notes) := by
  obtain ⟨p, hp, hvalid, hblanks⟩ := predict_unseen hkind hs hd
  rw [evaluate_of_length (hs.length.trans o.keys_length.symm), hp, Noted.lift_bind rfl,
    run_residual_of_not_valid o hvalid, hblanks]

/-! ### What follows from the residual -/

theorem run_error (o : Observation K) (hen : o.enabled = true) {values : Table Key (Tensor K)}
    (hvs : o.estimates values = .ok vs) (notes : List (Event K)) :
    (o.error values).run.run notes = match (o.evaluate vs).run.run notes with
      | (.ok s, notes') => ((LinearFactor.whitenVec o.noise s.1).map fun e => 0.5 * e.dot e, notes')
      | (.error e, notes') => (.error e, notes') := by
  rw [error, if_pos hen, Noted.run_bind, whitenedResidual, Noted.lift_bind hvs, Noted.run_bind]
  rcases (o.evaluate vs).run.run notes with ⟨r, notes'⟩
  cases r with
  | error e => rfl
  | ok s =>
    dsimp only
    rw [Noted.run_lift]
    cases LinearFactor.whitenVec o.noise s.1 <;> rfl

theorem folded_eq (o : Observation K) (s : Vec K × List (Mat K)) :
    o.folded s = liftM ((o.fold s.1 s.2).map some) := by
  have hmap : (o.fold s.1 s.2).map some = o.fold s.1 s.2 >>= fun f => .ok (some f) := by
    cases o.fold s.1 s.2 <;> rfl
  rw [hmap, fold, folded, Noted.liftM_mapM]
  simp only [bind_assoc, Noted.liftM_bind]
  rfl

theorem run_linearize (o : Observation K) (hen : o.enabled = true) {values : Table Key (Tensor K)}
    (hvs : o.estimates values = .ok vs) (notes : List (Event K)) :
    (o.linearize values).run.run notes = match (o.evaluate vs).run.run notes with
      | (.ok s, notes') => ((o.fold s.1 s.2).map some, notes')
      | (.error e, notes') => (.error e, notes') := by
  rw [linearize_of_enabled hen, Noted.lift_bind hvs, Noted.run_bind]
  rcases (o.evaluate vs).run.run notes with ⟨r, notes'⟩
  cases r with
  | error e => rfl
  | ok s =>
    dsimp only
    rw [folded_eq, Noted.run_lift]

theorem whitenVec_zeros (h : LinearFactor.OnePerRow o.noise measurementWidth) :
    LinearFactor.whitenVec o.noise (Vec.zeros measurementWidth) = .ok (Vec.zeros measurementWidth) := by
  have hsize : o.scaling.size = measurementWidth := LinearFactor.size_scaling h
  rw [whitenVec_noise h (Vec.size_zeros _), RowScaling.vec_zeros, hsize]

/-- Zeros are folded into a factor of zeros. -/
theorem fold_zeros (hkeys : o.keys.Nodup) (h : LinearFactor.OnePerRow o.noise measurementWidth) :
    ∃ f, o.fold (Vec.zeros measurementWidth) (blanks o.kind) = .ok f ∧
      f.terms.entries = o.keys.zip (blanks o.kind) ∧ f.rhs = Vec.zeros measurementWidth := by
  have hs := shaped_blanks (K := K) o.kind
  obtain ⟨f, hf, -⟩ | ⟨hno, -⟩ := fold_shaped hkeys hs
  · obtain ⟨hterms, hrhs, -⟩ := fold_scaling hs hf
    have hsize : o.scaling.size = measurementWidth := LinearFactor.size_scaling h
    refine ⟨f, hf, ?_, ?_⟩
    · have hblank : ∀ k : VariableKind, o.scaling.mat (Mat.zeros measurementWidth k.width) =
          Mat.zeros measurementWidth k.width := by
        intro k
        rw [RowScaling.mat_zeros, hsize]
      rw [hterms, blanks, List.map_map]
      congr 1
      exact List.map_congr_left fun k _ => hblank k
    · rw [hrhs, RowScaling.vec_zeros, Vec.neg_zeros, hsize]
  · exact absurd h hno

end Unseen

/-! ### Passing over -/

/-- An observation that is passed over has no residual, derivatives of zeros and one note. With one
deviation for each row there follow no error and a factor of zeros; no other model can be whitened with. -/
structure PassedOver (o : Observation K) (vs : List (Tensor K)) (notes : List (Event K))
    (event : Event K) : Prop where
  evaluate : (o.evaluate vs).run.run notes =
    (.ok (Vec.zeros measurementWidth, blanks o.kind), notes ++ [event])
  error : ∀ values, o.estimates values = .ok vs → LinearFactor.OnePerRow o.noise measurementWidth →
    (o.error values).run.run notes = (.ok 0, notes ++ [event])
  linearize : ∀ values, o.estimates values = .ok vs → LinearFactor.OnePerRow o.noise measurementWidth →
    o.keys.Nodup → ∃ f, (o.linearize values).run.run notes = (.ok (some f), notes ++ [event]) ∧
      f.terms.entries = o.keys.zip (blanks o.kind) ∧ f.rhs = Vec.zeros measurementWidth
  misfit : ∀ values, o.estimates values = .ok vs → ¬ LinearFactor.OnePerRow o.noise measurementWidth →
    (o.error values).run.run notes = (.error .shapeMismatch, notes ++ [event]) ∧
      (o.keys.Nodup → (o.linearize values).run.run notes = (.error .shapeMismatch, notes ++ [event]))

theorem passedOver_of_evaluate {o : Observation K} (hen : o.enabled = true) {vs : List (Tensor K)}
    {notes : List (Event K)} {event : Event K}
    (h : (o.evaluate vs).run.run notes =
      (.ok (Vec.zeros measurementWidth, blanks o.kind), notes ++ [event])) :
    o.PassedOver vs notes event where
  evaluate := h
  error := by
    intro values hvs hone
    rw [run_error o hen hvs, h]
    dsimp only
    rw [whitenVec_zeros hone]
    show (Except.ok (0.5 * (Vec.zeros measurementWidth : Vec K).dot (Vec.zeros measurementWidth)), _) = _
    rw [Vec.dot_zeros, mul_zero]
  linearize := by
    intro values hvs hone hkeys
    obtain ⟨f, hf, hterms, hrhs⟩ := fold_zeros hkeys hone
    refine ⟨f, ?_, hterms, hrhs⟩
    rw [run_linearize o hen hvs, h]
    dsimp only
    rw [hf]
    rfl
  misfit := by
    intro values hvs hno
    have hs := shaped_blanks (K := K) o.kind
    refine ⟨?_, fun hkeys => ?_⟩
    · rw [run_error o hen hvs, h]
      dsimp only
      rw [LinearFactor.whitenVec_of_not_onePerRow hs.rows o.noise_rows (by decide) hno]
      rfl
    · rw [run_linearize o hen hvs, h]
      dsimp only
      obtain ⟨hone, -⟩ | ⟨-, hf⟩ := fold_cases hkeys hs
      · exact absurd hone hno
      · rw [hf]
        rfl

/-- **A landmark that is not in front of its camera is passed over with one warning that shows the two
keys, if they can be shown; if not, the warning fails and the observation with it.** -/
theorem unseen_passedOver {o : Observation K} {camera landmark : Key} {rest : List Key}
    (hkeys : o.keys = camera :: landmark :: rest) (hen : o.enabled = true) {vs : List (Tensor K)}
    (hs : Sized o.kind.unknowns vs) (hd : depth vs ≤ Projection.minDepth) (notes : List (Event K)) :
    (camera.Shown ∧ landmark.Shown → ∃ c l, camera.label = .ok c ∧ landmark.label = .ok l ∧
      o.PassedOver vs notes (.behindCamera l c)) ∧
    (¬ (camera.Shown ∧ landmark.Shown) → ∃ e, (e = .tagOverflow ∨ e = .tagRange) ∧
      (o.evaluate vs).run.run notes = (.error e, notes) ∧
      ∀ values, o.estimates values = .ok vs →
        (o.error values).run.run notes = (.error e, notes) ∧
        (o.linearize values).run.run notes = (.error e, notes)) := by
  have hkind : o.kind ≠ .abstract := by
    intro hk
    have hlen := o.keys_length
    rw [hk, hkeys] at hlen
    cases hlen
  have hrun := run_evaluate_unseen hkind hs hd notes
  have hwarning : o.behindCamera = landmark.label >>= fun l => camera.label >>= fun c =>
      .ok (.behindCamera l c) := by
    rw [behindCamera, hkeys]
    rfl
  constructor
  · rintro ⟨hcamera, hlandmark⟩
    obtain ⟨c, hc⟩ := Key.label_of_shown hcamera
    obtain ⟨l, hl⟩ := Key.label_of_shown hlandmark
    rw [hwarning, hl, ok_bind, hc, ok_bind] at hrun
    exact ⟨c, l, hc, hl, passedOver_of_evaluate hen hrun⟩
  · intro hno
    have hfails : ∃ e, o.behindCamera = .error e := by
      by_cases hlandmark : landmark.Shown
      · obtain ⟨l, hl⟩ := Key.label_of_shown hlandmark
        obtain ⟨e, hc, -⟩ := Key.label_of_not_shown fun hcamera => hno ⟨hcamera, hlandmark⟩
        exact ⟨e, by rw [hwarning, hl, ok_bind, hc]; rfl⟩
      · obtain ⟨e, hl, -⟩ := Key.label_of_not_shown hlandmark
        exact ⟨e, by rw [hwarning, hl]; rfl⟩
    obtain ⟨e, he⟩ := hfails
    rw [he] at hrun
    refine ⟨e, behindCamera_eq_error he, hrun, fun values hvs => ⟨?_, ?_⟩⟩
    · rw [run_error o hen hvs, hrun]
    · rw [run_linearize o hen hvs, hrun]

/-- A pixel of a landmark under any key, seen by a camera under a text. -/
def levelPixel (landmark : Key) : Observation ℚ where
  kind := .cameraLandmark
  measured := Vec.ofFn 2 fun _ => 1
  noise := some (.diagonal (Vec.ofFn 2 fun _ => 2))
  keys := [.name "camera", landmark]
  enabled := true
  measured_size := rfl
  keys_length := rfl
  noise_rows := by decide

/-- A camera at the origin, and a landmark beside it, at depth zero. -/
def beside : List (Tensor ℚ) :=
  [.ofVec (Vec.ofFn 11 fun i => if i < 6 then 0 else 1), .ofVec (Vec.ofFn 3 fun i => if i = 0 then 1 else 0)]

theorem sized_beside : Sized ObservationKind.cameraLandmark.unknowns beside := rfl

theorem depth_beside : depth beside ≤ Projection.minDepth := by decide +kernel

/-- The landmark is passed over under the label of its tag and index. -/
theorem unseen_passedOver_levelPixel :
    (levelPixel (.number (Key.pack 108 7))).enabled = true ∧
      Sized (levelPixel (.number (Key.pack 108 7))).kind.unknowns beside ∧
      depth beside ≤ Projection.minDepth ∧
      (levelPixel (.number (Key.pack 108 7))).PassedOver beside [] (.behindCamera "l7" "camera") := by
  obtain ⟨hshown, -⟩ := unseen_passedOver (o := levelPixel (.number (Key.pack 108 7))) rfl rfl
    sized_beside depth_beside []
  obtain ⟨c, l, hc, hl, hpassed⟩ := hshown (by decide)
  cases hc
  have hlabel : (Key.number (Key.pack 108 7)).label = .ok "l7" := by decide +kernel
  cases hlabel.symm.trans hl
  exact ⟨rfl, rfl, depth_beside, hpassed⟩

/-- The first number whose tag bits are no code point cannot be shown, and the landmark under it is
not passed over. -/
theorem evaluate_levelPixel_unshown :
    depth beside ≤ Projection.minDepth ∧
      ((levelPixel (.number (Key.codePoints * Key.indexCount : Nat))).evaluate beside).run.run [] =
        (.error .tagRange, []) := by
  refine ⟨depth_beside, ?_⟩
  have hrun := run_evaluate_unseen (o := levelPixel (.number (Key.codePoints * Key.indexCount : Nat)))
    nofun sized_beside depth_beside []
  have hlabel : (Key.number (Key.codePoints * Key.indexCount : Nat)).label = .error .tagRange := by
    decide +kernel
  have hwarning : (levelPixel (.number (Key.codePoints * Key.indexCount : Nat))).behindCamera =
      .error .tagRange := congrArg (· >>= _) hlabel
  rw [hrun, hwarning]

end Observation
end BundleAdjustment
