import BundleAdjustment.Proofs.Linear.Products
import BundleAdjustment.Proofs.Linear.Quadratic
import BundleAdjustment.Proofs.Graph.Registry
import BundleAdjustment.Proofs.Observation.Weighting

/-!
The noise of an observation is applied exactly once.

Linearizing folds the noise into the derivatives and the residual, and the factor that comes out whitens
with what remains of the model. What remains has deviations of one and hard constraints, so its whitening
changes nothing (`whitenTensor_remainingModel`), and scaling the parts scales their sum
(`vec_sumProducts`). So at every point the factor's error vector is the residual's linear model whitened
once (`linearize_whitensOnce`). Hard constraints are still marked, on the same rows. All of this is about
noise of one deviation for each of the two rows; under any other noise there is neither a factor nor an
error (`mismatch_of_not_onePerRow`, `linearize_crossedPixel`).
-/
namespace BundleAdjustment

theorem Vec.neg_neg {K : Type} [ExactScalar K] (v : Vec K) : - -v = v := by
  refine Vec.ext_get ((Vec.size_neg _).trans (Vec.size_neg v)) fun i hi => ?_
  have hi : i < v.size := by simpa using hi
  rw [Vec.get_neg (by simpa using hi), Vec.get_neg hi]
  exact InvolutiveNeg.neg_neg (v.get i)

namespace RowScaling
variable {K : Type} [ExactScalar K]

theorem vec_sumProducts {s : RowScaling K} {n : Nat} (hinto : s.Into n) (value : Key → Vec K) {e : Vec K}
    (he : e.size = n) {terms : List (Key × Mat K)} (hrows : ∀ t ∈ terms, t.2.rows = n) :
    LinearFactor.sumProducts (fun t => value t.1) (s.vec e) (terms.map fun t => (t.1, s.mat t.2)) =
      s.vec (LinearFactor.sumProducts (fun t => value t.1) e terms) := by
  induction terms generalizing e with
  | nil => rfl
  | cons t rest ih =>
    have ht : t.2.rows = n := hrows t (List.mem_cons_self ..)
    have hstep := vec_add_mulVec (ht.symm ▸ hinto) (he.trans ht.symm) (value t.1)
    show LinearFactor.sumProducts _ (s.vec e + (s.mat t.2).mulVec (value t.1)) _ = _
    rw [hstep]
    exact ih ((Vec.size_add _ _).trans he) fun u hu => hrows u (List.mem_cons_of_mem t hu)

end RowScaling

namespace Observation
variable {K : Type} [ExactScalar K] {o : Observation K} {r : Vec K} {jacobians : List (Mat K)}
  {f : LinearFactor K}

/-- The linear model of a residual at a point, `r + Σ J x` over the keys and their derivatives. -/
def linearModel (o : Observation K) (r : Vec K) (jacobians : List (Mat K)) (point : Key → Vec K) : Vec K :=
  LinearFactor.sumProducts (fun t => point t.1) r (o.keys.zip jacobians)

/-- A container has a vector for each key that is as long as the key's derivative is wide. -/
def SuppliedBy (o : Observation K) (jacobians : List (Mat K)) (x : Container K) (point : Key → Vec K) : Prop :=
  LinearFactor.Supplies x (fun t => point t.1) (o.keys.zip jacobians)

theorem size_linearModel (hs : Shaped o.kind r jacobians) (point : Key → Vec K) :
    (o.linearModel r jacobians point).size = measurementWidth :=
  (LinearFactor.size_sumProducts ..).trans hs.rows

/-- The factor's terms are the keys with scaled derivatives. -/
theorem entries_of_fold (hs : Shaped o.kind r jacobians) (hf : o.fold r jacobians = .ok f) :
    f.terms.entries = (o.keys.zip jacobians).map fun t => (t.1, o.scaling.mat t.2) := by
  rw [(fold_scaling hs hf).1, List.zip_map_right]
  rfl

/-- The error vector of a folded factor is the linear model, scaled once. -/
theorem errorVector_of_fold (hs : Shaped o.kind r jacobians) (hf : o.fold r jacobians = .ok f)
    (hone : LinearFactor.OnePerRow o.noise measurementWidth) {x : Container K} {point : Key → Vec K}
    (hx : o.SuppliedBy jacobians x point) :
    f.errorVector x = .ok (.ofVec (o.scaling.vec (o.linearModel r jacobians point))) := by
  obtain ⟨-, hrhs, hinto, hmodel⟩ := fold_scaling hs hf
  have hentries := entries_of_fold hs hf
  have hsupplies : LinearFactor.Supplies x (fun t => point t.1) f.terms.entries := by
    intro t ht
    rw [hentries] at ht
    obtain ⟨u, hu, rfl⟩ := List.mem_map.mp ht
    exact hx u hu
  have hrows : ∀ t ∈ o.keys.zip jacobians, t.2.rows = measurementWidth :=
    fun t ht => hs.rows_of_mem (List.of_mem_zip ht).2
  have hnegated : -f.rhs = o.scaling.vec r := by
    rw [hrhs]
    exact Vec.neg_neg _
  have hsum := RowScaling.vec_sumProducts hinto point hs.rows hrows
  rw [LinearFactor.errorVector_of_supplies hsupplies, hnegated, hentries, hsum, hmodel]
  have hsize : (o.scaling.vec (o.linearModel r jacobians point)).size = measurementWidth :=
    (Vec.size_ofFn _ _).trans (LinearFactor.size_scaling hone)
  exact LinearFactor.whitenTensor_remainingModel (hsize.symm ▸ o.noise_rows) (hsize.symm ▸ hone)

/-- At zero vectors the linear model is the residual. -/
theorem linearModel_zeros {x : Container K} {point : Key → Vec K} (hx : o.SuppliedBy jacobians x point)
    (hzero : ∀ key ∈ o.keys, ∃ n, point key = Vec.zeros n) : o.linearModel r jacobians point = r := by
  have hpoint : ∀ t ∈ o.keys.zip jacobians, point t.1 = Vec.zeros t.2.cols := by
    intro t ht
    obtain ⟨n, hn⟩ := hzero t.1 (List.of_mem_zip ht).1
    have hcols : (point t.1).size = t.2.cols := (hx t ht).2
    rw [hn, Vec.size_zeros] at hcols
    rw [hn, hcols]
  have hzeros : LinearFactor.sumProducts (fun t => Vec.zeros t.2.cols) r (o.keys.zip jacobians) = r :=
    LinearFactor.sumProducts_zeros r
  refine Eq.trans ?_ hzeros
  exact List.foldl_ext _ _ r fun e t ht => congrArg (fun x => e + t.2.mulVec x) (hpoint t ht)

/-- What remains of a model, and which rows it is hard on. -/
theorem hardAt_remainingModel (noise : Option (Noise K)) :
    ((LinearFactor.remainingModel noise).isSome = true ↔ ∃ m, noise = some m ∧ m.isConstrained = true) ∧
      ∀ m m', noise = some m → LinearFactor.remainingModel noise = some m' →
        ∀ i, m'.HardAt i ↔ m.HardAt i := by
  obtain ⟨hfree, hnone⟩ | ⟨m, rfl, hc, hsome⟩ := LinearFactor.remainingModel_cases noise
  · rw [hnone]
    constructor
    · constructor
      · intro h
        cases h
      · rintro ⟨m, rfl, hc⟩
        cases hfree.symm.trans hc
    · intro m m' _ hm'
      cases hm'
  · rw [hsome]
    refine ⟨⟨fun _ => ⟨m, rfl, hc⟩, fun _ => rfl⟩, ?_⟩
    intro m₁ m' hm₁ hm' i
    cases hm₁
    cases hm'
    exact m.hardAt_unweighted i

/-- Deviations that are not one for each row whiten nothing: there is no factor then, and no error. -/
theorem mismatch_of_not_onePerRow (hen : o.enabled = true) (hkeys : o.keys.Nodup)
    {values : Table Key (Tensor K)} {vs : List (Tensor K)} (hvs : o.estimates values = .ok vs)
    (hr : (o.evaluate vs).value = .ok (r, jacobians)) (hno : ¬ LinearFactor.OnePerRow o.noise measurementWidth) :
    (o.linearize values).value = .error .shapeMismatch ∧ (o.error values).value = .error .shapeMismatch ∧
      ∀ v : Vec K, v.size = measurementWidth → LinearFactor.whitenVec o.noise v = .error .shapeMismatch := by
  have hs := evaluate_shaped (length_estimates hvs) hr
  have hvec : ∀ v : Vec K, v.size = measurementWidth →
      LinearFactor.whitenVec o.noise v = .error .shapeMismatch := fun v hv =>
    LinearFactor.whitenVec_of_not_onePerRow hv o.noise_rows (by decide) hno
  have hfold : o.fold r jacobians = .error .shapeMismatch := by
    obtain ⟨hone, -⟩ | ⟨-, hf⟩ := fold_cases hkeys hs
    · exact absurd hone hno
    · exact hf
  refine ⟨?_, ?_, hvec⟩
  · rw [value_linearize_of_evaluate hen hvs hr, hfold]
    rfl
  · rw [value_error_of_evaluate hen hvs hr, hvec r hs.rows]
    rfl

/-- **The factor of an observation applies the noise once: at every point its error vector is the linear
model of the residual, whitened by the noise.** At zero its error is the observation's; it has a model
exactly if the noise has hard constraints, and then on the same rows. Deviations that are not one for each
row whiten nothing, neither in the factor nor in the error. -/
theorem linearize_whitensOnce (hen : o.enabled = true) (hkeys : o.keys.Nodup)
    {values : Table Key (Tensor K)} {vs : List (Tensor K)} (hvs : o.estimates values = .ok vs)
    (hr : (o.evaluate vs).value = .ok (r, jacobians)) :
    (LinearFactor.OnePerRow o.noise measurementWidth →
      ∃ f, (o.linearize values).value = .ok (some f) ∧
        (∀ x point, o.SuppliedBy jacobians x point →
          (∃ e, f.errorVector x = .ok (.ofVec e) ∧
            LinearFactor.whitenVec o.noise (o.linearModel r jacobians point) = .ok e) ∧
          ((∀ key ∈ o.keys, ∃ n, point key = Vec.zeros n) →
            ∃ a, f.error x = .ok a ∧ (o.error values).value = .ok a)) ∧
        (f.model.isSome = true ↔ ∃ m, o.noise = some m ∧ m.isConstrained = true) ∧
        ∀ m m', o.noise = some m → f.model = some m' → ∀ i, m'.HardAt i ↔ m.HardAt i) ∧
    (¬ LinearFactor.OnePerRow o.noise measurementWidth →
      (o.linearize values).value = .error .shapeMismatch ∧
      (o.error values).value = .error .shapeMismatch ∧
      ∀ v : Vec K, v.size = measurementWidth → LinearFactor.whitenVec o.noise v = .error .shapeMismatch) := by
  have hs := evaluate_shaped (length_estimates hvs) hr
  refine ⟨fun hone => ?_, mismatch_of_not_onePerRow hen hkeys hvs hr⟩
  obtain ⟨-, f, hf, -⟩ | ⟨hno, -⟩ := fold_cases hkeys hs
  · refine ⟨f, ?_, fun x point hx => ⟨?_, fun hzero => ?_⟩, ?_⟩
    · rw [value_linearize_of_evaluate hen hvs hr, hf]
      rfl
    · exact ⟨_, errorVector_of_fold hs hf hone hx, whitenVec_noise hone (size_linearModel hs point)⟩
    · have hvector := errorVector_of_fold hs hf hone hx
      rw [linearModel_zeros hx hzero] at hvector
      refine ⟨0.5 * (o.scaling.vec r).dot (o.scaling.vec r), ?_, ?_⟩
      · rw [LinearFactor.error, hvector]
        rfl
      · rw [value_error_of_evaluate hen hvs hr, whitenVec_noise hone hs.rows]
        rfl
    · rw [(fold_scaling hs hf).2.2.2]
      exact hardAt_remainingModel o.noise
  · exact absurd hone hno

/-- A pixel whose first row is a hard constraint. -/
def halfHardPixel : Observation ℚ where
  kind := .cameraLandmark
  measured := Vec.ofFn 2 fun _ => 1
  noise := some (.constrained (.ofVec (Vec.ofFn 2 fun i => 2 * i)) 1000)
  keys := [.number 0, .number 1]
  enabled := true
  measured_size := Graph.twoKeys.measured_size
  keys_length := Graph.twoKeys.keys_length
  noise_rows := by decide

def fourAhead : Table Key (Tensor ℚ) :=
  Table.ofList [(.number 0, .ofVec (Vec.ofFn 11 fun i => if i < 6 then 0 else 1)),
    (.number 1, .ofVec (Vec.ofFn 3 fun i => i + 2))]

/-- A step of four units to the side for the landmark, and none for the camera. -/
def sideStep (key : Key) : Vec ℚ :=
  if key = .number 0 then Vec.zeros 11 else Vec.ofFn 3 fun i => if i = 0 then 4 else 0

def sideSteps : Container ℚ :=
  Table.ofList [(.number 0, .ofVec (sideStep (.number 0))), (.number 1, .ofVec (sideStep (.number 1)))]

theorem suppliedBy_sideSteps {r : Vec ℚ} {jacobians : List (Mat ℚ)} (hs : Shaped .cameraLandmark r jacobians) :
    halfHardPixel.SuppliedBy jacobians sideSteps sideStep := by
  obtain ⟨A, B, rfl⟩ : ∃ A B, jacobians = [A, B] := List.length_eq_two.mp hs.length
  have hshapes : [(A.rows, A.cols), (B.rows, B.cols)] = [(2, 11), (2, 3)] := hs.jacobians
  obtain ⟨⟨-, hA⟩, -, hB⟩ : (A.rows = 2 ∧ A.cols = 11) ∧ B.rows = 2 ∧ B.cols = 3 := by simpa using hshapes
  intro t ht
  have hzip : halfHardPixel.keys.zip [A, B] = [(.number 0, A), (.number 1, B)] := rfl
  rw [hzip, List.mem_cons, List.mem_singleton] at ht
  rcases ht with rfl | rfl
  · exact ⟨rfl, hA.symm⟩
  · exact ⟨rfl, hB.symm⟩

theorem get_errorVector_halfHardPixel {f : LinearFactor ℚ} {e : Vec ℚ}
    (hf : (halfHardPixel.linearize fourAhead).value = .ok (some f)) (he : f.errorVector sideSteps = .ok (.ofVec e)) :
    e.get 0 = 9 / 4 ∧ e.get 1 = 3 / 8 := by
  have hnumbers : ((halfHardPixel.linearize fourAhead).value.toOption.bind id).bind (fun f =>
      (f.errorVector sideSteps).toOption.map fun t => decide (t.get [0] = 9 / 4 ∧ t.get [1] = 3 / 8)) =
        some true := by decide +kernel
  rw [hf] at hnumbers
  change (f.errorVector sideSteps).toOption.map _ = _ at hnumbers
  rw [he] at hnumbers
  have hget := of_decide_eq_true (Option.some.inj hnumbers)
  rwa [Tensor.get_ofVec, Tensor.get_ofVec] at hget

/-- The residual has five quarters and three quarters, and the step adds one to the first. That row is hard
and stays as it is, the other one is halved once, and the factor stays hard on its first row, and only
there. -/
theorem linearize_whitensOnce_halfHardPixel :
    ∃ vs r jacobians f, halfHardPixel.enabled = true ∧ halfHardPixel.keys.Nodup ∧
      halfHardPixel.estimates fourAhead = .ok vs ∧
      (halfHardPixel.evaluate vs).value = .ok (r, jacobians) ∧
      (halfHardPixel.linearize fourAhead).value = .ok (some f) ∧
      (∃ e, f.errorVector sideSteps = .ok (.ofVec e) ∧
        LinearFactor.whitenVec halfHardPixel.noise (halfHardPixel.linearModel r jacobians sideStep) = .ok e ∧
        e.get 0 = 9 / 4 ∧ e.get 1 = 3 / 8) ∧
      ∃ m', f.model = some m' ∧ m'.HardAt 0 ∧ ¬ m'.HardAt 1 := by
  have hkeys : halfHardPixel.keys.Nodup := by decide
  have hone : LinearFactor.OnePerRow halfHardPixel.noise measurementWidth := by
    intro m hm
    cases hm
    rfl
  obtain ⟨vs, hvs⟩ : ∃ vs, halfHardPixel.estimates fourAhead = .ok vs := ⟨_, rfl⟩
  have hevaluates : (halfHardPixel.estimates fourAhead >>= fun vs =>
      (halfHardPixel.evaluate vs).value).toOption.isSome = true := by decide +kernel
  rw [hvs, ok_bind] at hevaluates
  cases hr : (halfHardPixel.evaluate vs).value with
  | error e =>
    rw [hr] at hevaluates
    cases hevaluates
  | ok s =>
    obtain ⟨f, hf, hvectors, hmodel, hrows⟩ := (linearize_whitensOnce rfl hkeys hvs hr).1 hone
    have hshaped := evaluate_shaped (length_estimates hvs) hr
    obtain ⟨e, he, hwhitened⟩ := (hvectors sideSteps sideStep (suppliedBy_sideSteps hshaped)).1
    obtain ⟨m', hm'⟩ := Option.isSome_iff_exists.mp (hmodel.mpr ⟨_, rfl, by decide +kernel⟩)
    refine ⟨vs, s.1, s.2, f, rfl, hkeys, hvs, hr, hf,
      ⟨e, he, hwhitened, get_errorVector_halfHardPixel hf he⟩, m', hm', ?_, ?_⟩
    · exact (hrows _ m' rfl hm' 0).mpr ⟨_, _, rfl, by decide, by decide +kernel⟩
    · rw [hrows _ m' rfl hm' 1]
      rintro ⟨s, w, hs, -, hzero⟩
      cases hs
      exact absurd hzero (by decide +kernel)

/-- A pixel whose two rows have four deviations, none of them zero. It lies where the landmark four units
ahead is seen. -/
def crossedPixel : Observation ℚ where
  kind := .cameraLandmark
  measured := Vec.ofFn 2 fun i => if i = 0 then 9 / 4 else 7 / 4
  noise := some (.constrained ⟨[2, 2], #[1, 2, 3, 4], rfl⟩ 1000)
  keys := [.number 0, .number 1]
  enabled := true
  measured_size := Graph.twoKeys.measured_size
  keys_length := Graph.twoKeys.keys_length
  noise_rows := by decide

/-- Nothing is left of the pixel, and yet it has no error and no factor: four deviations whiten no two rows. -/
theorem linearize_crossedPixel :
    ∃ vs jacobians, crossedPixel.enabled = true ∧ crossedPixel.keys.Nodup ∧
      (∀ m, crossedPixel.noise = some m → m.isConstrained = false) ∧
      crossedPixel.estimates fourAhead = .ok vs ∧
      (crossedPixel.evaluate vs).value = .ok (Vec.zeros 2, jacobians) ∧
      (crossedPixel.linearize fourAhead).value = .error .shapeMismatch ∧
      (crossedPixel.error fourAhead).value = .error .shapeMismatch := by
  have hkeys : crossedPixel.keys.Nodup := by decide
  have hno : ¬ LinearFactor.OnePerRow crossedPixel.noise measurementWidth := fun hone =>
    absurd (hone _ rfl) (by decide)
  obtain ⟨vs, hvs⟩ : ∃ vs, crossedPixel.estimates fourAhead = .ok vs := ⟨_, rfl⟩
  have hzeros : (crossedPixel.estimates fourAhead >>= fun vs => (crossedPixel.evaluate vs).value).toOption.map
      (fun s => decide (s.1.entries = #[0, 0])) = some true := by decide +kernel
  rw [hvs, ok_bind] at hzeros
  cases hr : (crossedPixel.evaluate vs).value with
  | error e =>
    rw [hr] at hzeros
    cases hzeros
  | ok s =>
    obtain ⟨r, jacobians⟩ := s
    obtain ⟨hlinearize, herror, -⟩ := mismatch_of_not_onePerRow rfl hkeys hvs hr hno
    rw [hr] at hzeros
    have hnothing : r = Vec.zeros 2 := congrArg Vec.mk (of_decide_eq_true (Option.some.inj hzeros))
    refine ⟨vs, jacobians, rfl, hkeys, fun m hm => ?_, hvs, hnothing ▸ hr, hlinearize, herror⟩
    cases hm
    decide +kernel

end Observation
end BundleAdjustment
