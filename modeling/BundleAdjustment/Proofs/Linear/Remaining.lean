import BundleAdjustment.Proofs.Linear.Whitening

/-!
What remains of a noise model.

Folding a model into a factor leaves nothing of it, or a constrained model of zeros and ones: the zeros
mark the rows that were hard constraints (`hardAt_unweighted`), and the ones weigh nothing. So what
remains scales by one (`isIdentity_remainingModel`), and all of it remains when it is folded in again
(`remainingModel_remainingModel`).
-/
namespace BundleAdjustment
variable {K : Type} [ExactScalar K]

namespace Noise

theorem get_unweighted (s : Tensor K) {i : Nat} (hi : i < s.flatten.size) :
    (s.map fun a => if Scalar.same a 0 then 0 else 1).flatten.get i =
      if s.flatten.get i = 0 then 0 else 1 := by
  have hi : i < s.entries.size := hi
  simp [Tensor.flatten, Tensor.map, Vec.get, hi]

/-- Deviations of zero and one scale by one. -/
theorem isIdentity_unweighted {m : Noise K} {n : Nat} (hone : LinearFactor.OnePerRow (some m) n) :
    (scaling (some m.unweighted) n).IsIdentity n := by
  refine ⟨LinearFactor.size_scaling (LinearFactor.onePerRow_unweighted hone),
    fun k hk => LinearFactor.source_scaling _ hk, fun k hk => ?_⟩
  cases m with
  | constrained s w =>
    have hk' : k < s.flatten.size := by
      have hsize : s.flatten.size = n := hone _ rfl
      omega
    have hmap : k < (s.map fun a => if Scalar.same a 0 then 0 else 1).flatten.size :=
      lt_of_lt_of_eq hk' (Array.size_map ..).symm
    show (unweighted (constrained s w)).scales.get k = 1
    rw [scales, unweighted, sigmas, Vec.get_map hmap, get_unweighted s hk', inverse]
    split <;> simp
  | _ => rfl

/-- The model holds a row as a hard constraint. -/
def HardAt (m : Noise K) (i : Nat) : Prop :=
  ∃ s w, m = constrained s w ∧ i < s.flatten.size ∧ s.flatten.get i = 0

theorem isConstrained_iff {m : Noise K} : m.isConstrained = true ↔ ∃ i, m.HardAt i := by
  cases m with
  | constrained s w =>
    simp only [isConstrained, Vec.any, List.any_eq_true, List.mem_range, Scalar.same_eq_decide, decide_eq_true_eq]
    constructor
    · rintro ⟨i, hi, hzero⟩
      exact ⟨i, s, w, rfl, hi, hzero⟩
    · rintro ⟨i, s', w', hs', hi, hzero⟩
      cases hs'
      exact ⟨i, hi, hzero⟩
  | _ =>
    constructor
    · intro h
      cases h
    · rintro ⟨i, s', w', hs', -⟩
      cases hs'

/-- Without its weighting a model is hard on the same rows. -/
theorem hardAt_unweighted (m : Noise K) (i : Nat) : m.unweighted.HardAt i ↔ m.HardAt i := by
  cases m with
  | constrained s w =>
    have hsize : (s.map fun a => if Scalar.same a 0 then 0 else 1).flatten.size = s.flatten.size :=
      Array.size_map ..
    constructor
    · rintro ⟨s', w', hs', hi, hzero⟩
      cases hs'
      rw [hsize] at hi
      rw [get_unweighted s hi] at hzero
      refine ⟨s, w, rfl, hi, ?_⟩
      by_contra hne
      rw [if_neg hne] at hzero
      exact one_ne_zero hzero
    · rintro ⟨s', w', hs', hi, hzero⟩
      cases hs'
      exact ⟨_, w, rfl, hsize.symm ▸ hi, by rw [get_unweighted s hi, if_pos hzero]⟩
  | _ =>
    -- Neither a model of another kind nor the unit model that it becomes holds a row.
    constructor
    · rintro ⟨s', w', hs', -⟩
      cases hs'
    · rintro ⟨s', w', hs', -⟩
      cases hs'

theorem isConstrained_unweighted {m : Noise K} (h : m.isConstrained = true) :
    m.unweighted.isConstrained = true := by
  obtain ⟨i, hi⟩ := isConstrained_iff.mp h
  exact isConstrained_iff.mpr ⟨i, (m.hardAt_unweighted i).mpr hi⟩

/-- There is no more weighting to lose. -/
theorem unweighted_unweighted (m : Noise K) : m.unweighted.unweighted = m.unweighted := by
  cases m with
  | constrained s w =>
    simp only [unweighted, Tensor.map, Array.map_map]
    congr 2
    refine Array.map_congr_left fun a _ => ?_
    simp only [Function.comp, Scalar.same_eq_decide]
    split <;> simp
  | _ => simp only [unweighted, ofRows, Vec.size_ofFn]

end Noise

namespace LinearFactor

/-- What remains of a model scales by one. -/
theorem isIdentity_remainingModel {model : Option (Noise K)} {n : Nat} (h : OnePerRow model n) :
    (Noise.scaling (remainingModel model) n).IsIdentity n := by
  obtain ⟨-, hnone⟩ | ⟨m, rfl, -, hsome⟩ := remainingModel_cases model
  · rw [hnone]
    exact RowScaling.isIdentity_identity n
  · rw [hsome]
    exact Noise.isIdentity_unweighted h

/-- What remains of a model whitens nothing. -/
theorem whitenTensor_remainingModel {model : Option (Noise K)} {v : Vec K} (hm : ModelRows model v.size)
    (hone : OnePerRow model v.size) : whitenTensor (remainingModel model) (.ofVec v) = .ok (.ofVec v) := by
  rw [whitenTensor_ofVec (modelRows_remainingModel hm) (onePerRow_remainingModel hone),
    (isIdentity_remainingModel hone).vec_eq]

theorem remainingModel_remainingModel (model : Option (Noise K)) :
    remainingModel (remainingModel model) = remainingModel model := by
  obtain ⟨-, hnone⟩ | ⟨m, -, hc, hsome⟩ := remainingModel_cases model
  · rw [hnone]
    rfl
  · rw [hsome, remainingModel, Noise.isConstrained_unweighted hc, if_pos rfl, m.unweighted_unweighted]

end LinearFactor
end BundleAdjustment
