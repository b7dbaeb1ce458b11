import BundleAdjustment.Proofs.Linear.Assembly
import BundleAdjustment.Proofs.Linear.Remaining
import BundleAdjustment.Proofs.Graph.Evaluation

/-!
The factor and the error of an observation have one weighting.

In exact arithmetic the factor of an observation holds its derivatives and its negative residual,
scaled row by row by the noise (`fold_scaling`), whether the code takes the model to need whitening
or not. The error scales the residual in the same way, so that twice the error is the squared length
of the factor's right-hand side (`error_of_linearize`). What is not seen has zeros in both
(`linearize_unseen`).
-/
namespace BundleAdjustment

namespace RowScaling
variable {K : Type} [ExactScalar K]

theorem mat_zeros (s : RowScaling K) (r c : Nat) : s.mat (Mat.zeros r c) = Mat.zeros s.size c :=
  Mat.ofFn_congr fun i j _ _ => by rw [Mat.get_zeros, zero_mul]

end RowScaling

theorem Vec.neg_zeros {K : Type} [ExactScalar K] (n : Nat) : -(zeros n : Vec K) = zeros n := by
  refine Vec.ext_get (Vec.size_neg _) fun i hi => ?_
  rw [Vec.get_neg (by simpa using hi), Vec.get_zeros, neg_zero]

/-- A factor of an observation that is folded in has no model left. -/
theorem LinearFactor.model_of_addTo {K : Type} [ExactScalar K] {f : LinearFactor K} {noise : Option (Noise K)}
    {slots : SlotTable} {M : BlockMatrix K} (hne : f.isEmpty = false) (hm : f.model = remainingModel noise)
    (h : (f.addTo slots M).2 = .ok ()) : f.model = none := by
  obtain ⟨-, hnone⟩ | ⟨m, -, hc, hsome⟩ := remainingModel_cases noise
  · exact hm.trans hnone
  · rw [addTo, writes_of_constrained slots M hne (hm.trans hsome) (Noise.isConstrained_unweighted hc)] at h
    cases h

namespace Observation
variable {K : Type} [ExactScalar K]

/-- How the noise of an observation scales its two rows. -/
def scaling (o : Observation K) : RowScaling K := Noise.scaling o.noise measurementWidth

theorem whiteningModel_cases (o : Observation K) :
    o.whiteningModel = o.noise ∨ o.whiteningModel = none ∧ o.scaling.IsIdentity measurementWidth := by
  unfold whiteningModel
  cases h : Noise.needsWhitening o.noise with
  | true => exact .inl rfl
  | false => exact .inr ⟨rfl, LinearFactor.isIdentity_scaling o.noise_rows h⟩

theorem whitenVec_whiteningModel {o : Observation K} {v u : Vec K} (hv : v.size = measurementWidth)
    (h : LinearFactor.whitenVec o.whiteningModel v = .ok u) :
    u = o.scaling.vec v ∧ o.scaling.Into measurementWidth := by
  rcases o.whiteningModel_cases with hm | ⟨hm, hid⟩
  · rw [hm] at h
    have hw := LinearFactor.whitenVec_eq (hv.symm ▸ o.noise_rows) h
    rw [hv] at hw
    exact hw
  · rw [hm] at h
    cases h
    rw [← hv] at hid ⊢
    exact ⟨hid.vec_eq.symm, hid.into⟩

theorem whitenMat_whiteningModel {o : Observation K} {A B : Mat K} (hA : A.rows = measurementWidth)
    (h : LinearFactor.whitenMat o.whiteningModel A = .ok B) : B = o.scaling.mat A := by
  rcases o.whiteningModel_cases with hm | ⟨hm, hid⟩
  · rw [hm] at h
    have hw := LinearFactor.whitenMat_eq (hA.symm ▸ o.noise_rows) h
    rw [hA] at hw
    exact hw
  · rw [hm] at h
    cases h
    rw [← hA] at hid
    exact hid.mat_eq.symm

/-- The factor's matrices and right-hand side are scaled derivatives and the scaled residual. -/
theorem fold_scaling {o : Observation K} {r : Vec K} {jacobians : List (Mat K)} {f : LinearFactor K}
    (hs : Shaped o.kind r jacobians) (h : o.fold r jacobians = .ok f) :
    f.terms.entries = o.keys.zip (jacobians.map o.scaling.mat) ∧ f.rhs = -o.scaling.vec r ∧
      o.scaling.Into measurementWidth ∧ f.model = LinearFactor.remainingModel o.noise := by
  obtain ⟨whitened, hw, hb, hterms, hmodel⟩ := fold_eq_ok h
  obtain ⟨hrhs, hinto⟩ := whitenVec_whiteningModel ((Vec.size_neg r).trans hs.rows) hb
  have hwhitened : whitened = jacobians.map o.scaling.mat := by
    have hmap := mapM_eq_ok.mp hw
    have hlen : whitened.length = jacobians.length := by simpa using (congrArg List.length hmap).symm
    refine List.ext_getElem (by rw [hlen, List.length_map]) fun i h₁ h₂ => ?_
    have hi : i < jacobians.length := hlen ▸ h₁
    have hget := congrArg (fun l => l[i]?) hmap
    simp only [List.getElem?_map, List.getElem?_eq_getElem hi, List.getElem?_eq_getElem h₁,
      Option.map_some, Option.some.injEq] at hget
    rw [List.getElem_map]
    exact whitenMat_whiteningModel (hs.rows_of_mem (List.getElem_mem hi)) hget
  refine ⟨by rw [hterms, hwhitened], ?_, hinto, hmodel⟩
  rw [hrhs, RowScaling.vec_neg _ (hs.rows.symm ▸ hinto)]

/-- With one deviation for each row, the model itself whitens every vector of two entries. -/
theorem whitenVec_noise {o : Observation K} (hone : LinearFactor.OnePerRow o.noise measurementWidth) {v : Vec K}
    (hv : v.size = measurementWidth) : LinearFactor.whitenVec o.noise v = .ok (o.scaling.vec v) := by
  obtain ⟨u, hu, -⟩ := LinearFactor.whitenVec_of_suits hv o.noise_rows (.inr hone)
  have hw := (LinearFactor.whitenVec_eq (hv.symm ▸ o.noise_rows) hu).1
  rw [hv] at hw
  rw [hu, hw]
  rfl

/-- What was folded has one deviation for each row. -/
theorem onePerRow_of_fold {o : Observation K} {r : Vec K} {jacobians : List (Mat K)} {f : LinearFactor K}
    (hs : Shaped o.kind r jacobians) (h : o.fold r jacobians = .ok f) :
    LinearFactor.OnePerRow o.noise measurementWidth := by
  obtain ⟨whitened, -, hb, -⟩ := fold_eq_ok h
  cases hn : Noise.needsWhitening o.noise with
  | false => exact LinearFactor.onePerRow_of_not_needsWhitening o.noise_rows hn
  | true =>
    rw [whiteningModel, hn, if_pos rfl] at hb
    by_contra hno
    have herr := LinearFactor.whitenVec_of_not_onePerRow ((Vec.size_neg r).trans hs.rows) o.noise_rows
      (by decide) hno
    cases herr.symm.trans hb

/-- A residual that was folded can be whitened with the model itself. -/
theorem whitenVec_of_fold {o : Observation K} {r : Vec K} {jacobians : List (Mat K)} {f : LinearFactor K}
    (hs : Shaped o.kind r jacobians) (h : o.fold r jacobians = .ok f) :
    LinearFactor.whitenVec o.noise r = .ok (o.scaling.vec r) :=
  whitenVec_noise (onePerRow_of_fold hs h) hs.rows

/-- A residual is folded exactly if there is one deviation for each row. -/
theorem fold_cases {o : Observation K} {r : Vec K} {jacobians : List (Mat K)} (hd : o.keys.Nodup)
    (hs : Shaped o.kind r jacobians) :
    LinearFactor.OnePerRow o.noise measurementWidth ∧ (∃ f, o.fold r jacobians = .ok f ∧ o.FoldedTo f) ∨
      ¬ LinearFactor.OnePerRow o.noise measurementWidth ∧ o.fold r jacobians = .error .shapeMismatch := by
  obtain ⟨f, hf, hfolded⟩ | h := fold_shaped hd hs
  · exact .inl ⟨onePerRow_of_fold hs hf, f, hf, hfolded⟩
  · exact .inr h

/-- Twice the error is the squared length of the factor's right-hand side; there is none for an
observation that is switched off. -/
theorem error_of_linearize {o : Observation K} {values : Table Key (Tensor K)}
    {out : Option (LinearFactor K)} (h : (o.linearize values).value = .ok out) :
    ∃ e, (o.error values).value = .ok e ∧ 2 * e = out.elim 0 fun f => f.rhs.dot f.rhs := by
  rcases linearize_eq_ok h with ⟨hen, rfl⟩ | ⟨hen, vs, r, jacobians, f, hvs, hr, hf, rfl⟩
  · refine ⟨0, value_error_of_disabled hen values, mul_zero _⟩
  · have hs := evaluate_shaped (length_estimates hvs) hr
    obtain ⟨-, hrhs, -⟩ := fold_scaling hs hf
    refine ⟨0.5 * (o.scaling.vec r).dot (o.scaling.vec r), ?_, ?_⟩
    · rw [value_error_of_evaluate hen hvs hr, whitenVec_of_fold hs hf]
      rfl
    · rw [Scalar.two_mul_half, Option.elim_some, hrhs, Vec.dot_neg_self]

/-- A factor is that of a residual at the observation's estimates. -/
theorem linearize_eq_some {o : Observation K} {values : Table Key (Tensor K)} {f : LinearFactor K}
    (h : (o.linearize values).value = .ok (some f)) :
    ∃ vs r jacobians, o.estimates values = .ok vs ∧ (o.evaluate vs).value = .ok (r, jacobians) ∧
      Shaped o.kind r jacobians ∧ o.fold r jacobians = .ok f := by
  obtain ⟨-, hout⟩ | ⟨-, vs, r, jacobians, f', hvs, hr, hf, hout⟩ := linearize_eq_ok h
  · cases hout
  · cases hout
    exact ⟨vs, r, jacobians, hvs, hr, evaluate_shaped (length_estimates hvs) hr, hf⟩

/-- The factor of an observation has terms, and what is left of the noise as its model. -/
theorem parts_of_linearize {o : Observation K} {values : Table Key (Tensor K)} {f : LinearFactor K}
    (h : (o.linearize values).value = .ok (some f)) :
    f.isEmpty = false ∧ f.model = LinearFactor.remainingModel o.noise := by
  obtain ⟨vs, r, jacobians, hvs, hr, hs, hf⟩ := linearize_eq_some h
  obtain ⟨hterms, -, -, hmodel⟩ := fold_scaling hs hf
  refine ⟨?_, hmodel⟩
  have hkind : o.kind ≠ .abstract := by
    intro hk
    rw [value_evaluate (length_estimates hvs), hk] at hr
    cases hr
  have hcount : f.terms.entries.length = o.kind.unknowns.length := by
    rw [hterms, List.length_zip, List.length_map, hs.length, o.keys_length, Nat.min_self]
  cases hl : f.terms.entries with
  | nil =>
    rw [hl] at hcount
    cases hk : o.kind with
    | abstract => exact absurd hk hkind
    | _ =>
      rw [hk] at hcount
      cases hcount
  | cons e rest =>
    rw [LinearFactor.isEmpty, hl]
    rfl

/-! ### What is not seen -/

/-- The landmark is not in front of the camera. -/
def Unseen (o : Observation K) (values : Table Key (Tensor K)) : Prop :=
  ∃ vs p, o.estimates values = .ok vs ∧ predict o.kind vs = .ok p ∧ p.valid = false

/-- The factor of what is not seen has zeros only. -/
theorem linearize_unseen {o : Observation K} {values : Table Key (Tensor K)} {f : LinearFactor K}
    (hu : o.Unseen values) (h : (o.linearize values).value = .ok (some f)) : f.IsZero := by
  obtain ⟨vs, p, hvs, hp, hv⟩ := hu
  obtain ⟨vs', r, jacobians, hvs', hr, hs, hf⟩ := linearize_eq_some h
  cases hvs.symm.trans hvs'
  obtain ⟨hterms, hrhs, -⟩ := fold_scaling hs hf
  rw [value_evaluate (length_estimates hvs), hp, ok_bind, value_residual_of_not_valid o hv] at hr
  cases hb : o.behindCamera with
  | error e =>
    rw [hb] at hr
    cases hr
  | ok e =>
    rw [hb] at hr
    cases hr
    refine ⟨⟨_, by rw [hrhs, RowScaling.vec_zeros, Vec.neg_zeros]⟩, fun e he => ?_⟩
    rw [hterms] at he
    obtain ⟨J, hJ, hJe⟩ := List.mem_map.mp (List.of_mem_zip he).2
    obtain ⟨J', -, rfl⟩ := List.mem_map.mp hJ
    exact ⟨_, _, by rw [← hJe, RowScaling.mat_zeros]⟩

/-- What is switched off or not seen has no error, if the warning can be written. -/
theorem error_eq_zero {o : Observation K} {values : Table Key (Tensor K)} {out : Option (LinearFactor K)}
    (ho : o.enabled = false ∨ o.Unseen values) (h : (o.linearize values).value = .ok out) :
    (o.error values).value = .ok 0 := by
  obtain ⟨e, he, hsum⟩ := error_of_linearize h
  have hzero : out.elim 0 (fun f => f.rhs.dot f.rhs) = 0 := by
    cases out with
    | none => rfl
    | some f =>
      rcases ho with hoff | hu
      · rw [value_linearize_of_disabled hoff] at h
        cases h
      · obtain ⟨n, hn⟩ := (linearize_unseen hu h).rhs
        rw [Option.elim_some, hn, Vec.dot_zeros]
  rw [hzero] at hsum
  rw [he, (mul_eq_zero.mp hsum).resolve_left two_ne_zero]

end Observation
end BundleAdjustment
