import BundleAdjustment.Proofs.Linear.Building
import BundleAdjustment.Proofs.Observation.Prediction

/-!
What an observation is linearized to.

An active observation with a residual becomes a linear factor of its keys (`fold`): the whitened
derivatives are the matrices, the whitened negative residual is the right-hand side. The matrices
have the rows of the right-hand side and the keys are distinct, so the checks of a new factor all
pass (`exists_factor`). All that can fail after the residual is the whitening, for a model with more
or fewer deviations than rows (`fold_shaped`).
-/
namespace BundleAdjustment

namespace Observation
variable {α : Type}

theorem zip_map_ofMat (keys : List Key) (jacobians : List (Mat α)) :
    keys.zip (jacobians.map Tensor.ofMat) = (keys.zip jacobians).map fun e => (e.1, .ofMat e.2) := by
  rw [List.zip_map_right]
  rfl

variable [Scalar α]

omit [Scalar α] in
/-- An observation of either kind is built of its keys and their matrices. -/
theorem factor_eq (o : Observation α) (jacobians : List (Mat α)) (rhs : Vec α) (model : Option (Noise α)) :
    ∃ kind, (kind = .general ∨ kind = .pair ∧ (o.keys.zip jacobians).length = 2) ∧
      o.factor jacobians rhs model = LinearFactor.build (fun _ => .ok kind)
        ((o.keys.zip jacobians).map fun e => (e.1, .ofMat e.2)) rhs model := by
  rw [← zip_map_ofMat]
  unfold factor
  split
  · rename_i first second _ hz
    refine ⟨.pair, .inr ⟨rfl, ?_⟩, by rw [hz]; rfl⟩
    have hlen := congrArg List.length hz
    rwa [zip_map_ofMat, List.length_map] at hlen
  · exact ⟨.general, .inl rfl, rfl⟩

omit [Scalar α] in
theorem parts_of_factor {o : Observation α} {jacobians : List (Mat α)} {rhs : Vec α}
    {model : Option (Noise α)} {f : LinearFactor α} (h : o.factor jacobians rhs model = .ok f) :
    f.terms.entries = o.keys.zip jacobians ∧ f.rhs = rhs ∧ f.model = model := by
  obtain ⟨kind, -, hf⟩ := o.factor_eq jacobians rhs model
  exact LinearFactor.parts_of_build (hf ▸ h)

omit [Scalar α] in
/-- Matrices of two rows for distinct keys always are a factor. -/
theorem exists_factor {o : Observation α} {jacobians : List (Mat α)} {rhs : Vec α}
    {model : Option (Noise α)} (hd : o.keys.Nodup) (hlen : jacobians.length = o.keys.length)
    (hr : ∀ J ∈ jacobians, J.rows = measurementWidth) (hb : rhs.size = measurementWidth)
    (hm : ModelRows model measurementWidth) : ∃ f, o.factor jacobians rhs model = .ok f := by
  obtain ⟨kind, hk, hf⟩ := o.factor_eq jacobians rhs model
  rw [hf]
  refine LinearFactor.exists_build ?_ ?_ (hb ▸ hm) ?_
  · rw [List.map_fst_zip (Nat.le_of_eq hlen.symm)]
    exact hd
  · intro e he
    exact (hr e.2 (List.of_mem_zip he).2).trans hb.symm
  · rcases hk with rfl | ⟨rfl, h2⟩
    · trivial
    · exact ⟨(List.length_map _).trans h2, hb⟩

/-! ### Folding a residual into a factor -/

/-- The model that an observation's derivatives are whitened with. -/
def whiteningModel (o : Observation α) : Option (Noise α) :=
  if Noise.needsWhitening o.noise then o.noise else none

/-- The factor of a residual and its derivatives. -/
def fold (o : Observation α) (r : Vec α) (jacobians : List (Mat α)) : Except Fault (LinearFactor α) := do
  let whitened ← jacobians.mapM fun J => LinearFactor.whitenMat o.whiteningModel J
  let rhs ← LinearFactor.whitenVec o.whiteningModel (-r)
  o.factor whitened rhs (LinearFactor.remainingModel o.noise)

theorem modelRows_whiteningModel (o : Observation α) : ModelRows o.whiteningModel measurementWidth := by
  unfold whiteningModel
  split
  · exact o.noise_rows
  · intro m hm
    cases hm

/-- The same steps where notes can be kept. -/
def folded (o : Observation α) (s : Vec α × List (Mat α)) : Noted α (Option (LinearFactor α)) := do
  let whitened ← s.2.mapM fun J => LinearFactor.whitenMat o.whiteningModel J
  let rhs ← LinearFactor.whitenVec o.whiteningModel (-s.1)
  return some (← o.factor whitened rhs (LinearFactor.remainingModel o.noise))

theorem linearize_of_enabled {o : Observation α} (h : o.enabled = true) (values : Table Key (Tensor α)) :
    o.linearize values =
      (liftM (o.estimates values) >>= fun vs => o.evaluate vs >>= o.folded : Noted α _) := by
  rw [linearize, if_pos h]
  rfl

theorem blind_folded (o : Observation α) (s : Vec α × List (Mat α)) : (o.folded s).Blind := by
  refine (Noted.blind_mapM (fun J => Noted.blind_lift _) s.2).bind fun whitened => ?_
  exact (Noted.blind_lift _).bind fun rhs => (Noted.blind_lift _).bind fun f => Noted.blind_pure _

theorem value_folded (o : Observation α) (s : Vec α × List (Mat α)) :
    (o.folded s).value = (o.fold s.1 s.2).map some := by
  rw [folded, Noted.value_bind fun whitened => (Noted.blind_lift _).bind fun rhs =>
    (Noted.blind_lift _).bind fun f => Noted.blind_pure _, Noted.value_mapM fun J => Noted.blind_lift _, fold]
  simp only [Noted.value_lift]
  cases s.2.mapM fun J => LinearFactor.whitenMat o.whiteningModel J with
  | error e => rfl
  | ok whitened =>
    cases LinearFactor.whitenVec o.whiteningModel (-s.1) with
    | error e => rfl
    | ok rhs =>
      simp only [ok_bind, Noted.lift_bind rfl]
      cases o.factor whitened rhs (LinearFactor.remainingModel o.noise) <;> rfl

theorem blind_linearize (o : Observation α) (values : Table Key (Tensor α)) :
    (o.linearize values).Blind := by
  cases h : o.enabled with
  | true =>
    rw [linearize_of_enabled h]
    exact (Noted.blind_lift _).bind fun vs => (o.blind_evaluate vs).bind o.blind_folded
  | false =>
    rw [linearize, h]
    exact Noted.blind_pure _

/-- An active observation becomes the factor of its residual. -/
theorem value_linearize {o : Observation α} (h : o.enabled = true) (values : Table Key (Tensor α)) :
    (o.linearize values).value = o.estimates values >>= fun vs =>
      (o.evaluate vs).value >>= fun s => (o.fold s.1 s.2).map some := by
  rw [linearize_of_enabled h, Noted.value_bind fun vs => (o.blind_evaluate vs).bind o.blind_folded,
    Noted.value_lift]
  congr 1
  funext vs
  rw [Noted.value_bind o.blind_folded]
  congr 1
  funext s
  exact o.value_folded s

/-- An observation that is switched off becomes nothing. -/
theorem value_linearize_of_disabled {o : Observation α} (h : o.enabled = false)
    (values : Table Key (Tensor α)) : (o.linearize values).value = .ok none := by
  rw [linearize, h]
  rfl

/-! ### What the factor is -/

theorem fold_eq_ok {o : Observation α} {r : Vec α} {jacobians : List (Mat α)} {f : LinearFactor α}
    (h : o.fold r jacobians = .ok f) :
    ∃ whitened, jacobians.mapM (fun J => LinearFactor.whitenMat o.whiteningModel J) = .ok whitened ∧
      LinearFactor.whitenVec o.whiteningModel (-r) = .ok f.rhs ∧
      f.terms.entries = o.keys.zip whitened ∧ f.model = LinearFactor.remainingModel o.noise := by
  obtain ⟨whitened, hw, h⟩ := bind_eq_ok.mp h
  obtain ⟨rhs, hb, h⟩ := bind_eq_ok.mp h
  obtain ⟨hterms, hrhs, hmodel⟩ := parts_of_factor h
  exact ⟨whitened, hw, hrhs ▸ hb, hterms, hmodel⟩

theorem linearize_eq_ok {o : Observation α} {values : Table Key (Tensor α)}
    {out : Option (LinearFactor α)} (h : (o.linearize values).value = .ok out) :
    o.enabled = false ∧ out = none ∨ o.enabled = true ∧ ∃ vs r jacobians f,
      o.estimates values = .ok vs ∧ (o.evaluate vs).value = .ok (r, jacobians) ∧
        o.fold r jacobians = .ok f ∧ out = some f := by
  cases he : o.enabled with
  | false =>
    rw [value_linearize_of_disabled he] at h
    cases h
    exact .inl ⟨rfl, rfl⟩
  | true =>
    rw [value_linearize he] at h
    obtain ⟨vs, hvs, h⟩ := bind_eq_ok.mp h
    obtain ⟨⟨r, jacobians⟩, hr, h⟩ := bind_eq_ok.mp h
    cases hf : o.fold r jacobians with
    | error e =>
      rw [hf] at h
      cases h
    | ok f =>
      rw [hf] at h
      cases h
      exact .inr ⟨rfl, vs, r, jacobians, f, hvs, hr, hf, rfl⟩

/-- What is known of the factor of a sized observation without a law of the numbers. -/
structure FoldedTo (o : Observation α) (f : LinearFactor α) : Prop where
  keys : f.keys = o.keys
  widths : f.widths = o.kind.unknowns.map VariableKind.width
  rows : f.rows = measurementWidth
  model : f.model = LinearFactor.remainingModel o.noise
  onePerRow : LinearFactor.OnePerRow f.model f.rows

/-- The model that remains has as many deviations as the one that was folded in. -/
theorem onePerRow_remainingModel {o : Observation α} {n : Nat}
    (h : LinearFactor.OnePerRow o.whiteningModel n) :
    LinearFactor.OnePerRow (LinearFactor.remainingModel o.noise) n := by
  obtain ⟨-, hnone⟩ | ⟨m, hn, hc, hsome⟩ := LinearFactor.remainingModel_cases o.noise
  · rw [hnone]
    intro m hm
    cases hm
  · have hw : o.whiteningModel = some m := by
      rw [whiteningModel, hn, Noise.needsWhitening, Noise.isUnit_of_isConstrained hc]
      rfl
    rw [hsome]
    exact LinearFactor.onePerRow_unweighted (hw ▸ h)

/-- A residual of the right shape is folded, unless the deviations are not one for each row. -/
theorem fold_shaped {o : Observation α} {r : Vec α} {jacobians : List (Mat α)} (hd : o.keys.Nodup)
    (hs : Shaped o.kind r jacobians) :
    (∃ f, o.fold r jacobians = .ok f ∧ o.FoldedTo f) ∨
      ¬ LinearFactor.OnePerRow o.noise measurementWidth ∧ o.fold r jacobians = .error .shapeMismatch := by
  have hm := o.modelRows_whiteningModel
  have h1 : measurementWidth ≠ 1 := by decide
  have hb : (-r).size = measurementWidth := (Vec.size_neg r).trans hs.rows
  have hlen : jacobians.length = o.keys.length := hs.length.trans o.keys_length.symm
  by_cases hone : LinearFactor.OnePerRow o.whiteningModel measurementWidth
  · obtain ⟨W, hW⟩ := LinearFactor.exists_whitenMat hm (.inr hone)
    obtain ⟨b, hwb, hbs⟩ := LinearFactor.whitenVec_of_suits hb hm (.inr hone)
    rw [hone.whitenedRows_eq] at hbs
    simp only [hone.whitenedRows_eq] at hW
    have hJ : ∀ J ∈ jacobians, J.rows = measurementWidth := fun J hJ => hs.rows_of_mem hJ
    have hmap : jacobians.mapM (fun J => LinearFactor.whitenMat o.whiteningModel J) =
        .ok (jacobians.map W) := by
      rw [mapM_eq_ok, List.map_map]
      exact List.map_congr_left fun J hmem => (hW J (hJ J hmem)).1
    have hrows : ∀ J ∈ jacobians.map W, J.rows = measurementWidth := by
      intro J hmem
      obtain ⟨J', hJ', rfl⟩ := List.mem_map.mp hmem
      exact (hW J' (hJ J' hJ')).2.1
    have hlen' : (jacobians.map W).length = o.keys.length := (List.length_map _).trans hlen
    obtain ⟨f, hf⟩ := exists_factor hd hlen' hrows hbs
      (LinearFactor.modelRows_remainingModel o.noise_rows)
    obtain ⟨hterms, hrhs, hmodel⟩ := parts_of_factor hf
    have hfr : f.rows = measurementWidth := by rw [LinearFactor.rows, hrhs, hbs]
    refine .inl ⟨f, ?_, ?_, ?_, hfr, hmodel, ?_⟩
    · rw [fold, hmap, ok_bind, hwb, ok_bind, hf]
    · rw [LinearFactor.keys, Table.keys, hterms, List.map_fst_zip (Nat.le_of_eq hlen'.symm)]
    · rw [LinearFactor.widths, termWidths, hterms]
      calc (o.keys.zip (jacobians.map W)).map (fun e => e.2.cols)
          = (jacobians.map W).map Mat.cols := by
            conv_rhs => rw [← List.map_snd_zip (Nat.le_of_eq hlen'), List.map_map]
            rfl
        _ = jacobians.map Mat.cols := by
            rw [List.map_map]
            exact List.map_congr_left fun J hmem => (hW J (hJ J hmem)).2.2
        _ = o.kind.unknowns.map VariableKind.width := by
            have hcols := congrArg (List.map Prod.snd) hs.jacobians
            rwa [List.map_map, List.map_map] at hcols
    · rw [hmodel, hfr]
      exact onePerRow_remainingModel hone
  · refine .inr ⟨fun h => hone ?_, ?_⟩
    · intro m hm'
      unfold whiteningModel at hm'
      split at hm'
      · exact h m hm'
      · cases hm'
    · have hwb := LinearFactor.whitenVec_of_not_onePerRow hb hm h1 hone
      cases jacobians with
      | nil =>
        rw [fold, hwb]
        rfl
      | cons J rest =>
        have hwJ := LinearFactor.whitenMat_of_not_onePerRow (hs.rows_of_mem (List.mem_cons_self ..)) hm h1 hone
        rw [fold, List.mapM_cons, hwJ]
        rfl

end Observation
end BundleAdjustment
