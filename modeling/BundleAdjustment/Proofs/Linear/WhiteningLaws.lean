import BundleAdjustment.Proofs.Linear.Remaining

/-!
The laws of whitening.

The operations of a factor rely on whitening as if it were a diagonal matrix: twice over it multiplies by
the precisions, it goes past a product with a matrix, and a model that says it changes nothing changes
nothing. `Lawful` lists what a model owes. Which models keep it is settled by two things that no kind
checks when it is made (`lawful_iff`): a constrained model takes an array of deviations with any number
of axes, and a unit model takes any deviations, with which it then says that it changes nothing. For the
ways in which models are made this gives `lawful_built`. Nothing depends on what one over zero is: the two
sides of a law multiply by the same inverses.
-/
namespace BundleAdjustment

namespace Tensor
variable {α : Type}

/-- A common shape has at least the axes of each. -/
theorem length_le_of_alignReversed {s r t : List Nat} (h : alignReversed s r = some t) :
    s.length ≤ t.length := by
  induction s, r using alignReversed.induct generalizing t with
  | case1 r => exact Nat.zero_le _
  | case2 s hs =>
    cases s with
    | nil => exact absurd rfl hs
    | cons m s =>
      cases h
      exact le_rfl
  | case3 m s n r ih =>
    rw [alignReversed] at h
    cases hrest : alignReversed s r with
    | none => simp [hrest] at h
    | some rest =>
      have hlen := ih hrest
      simp only [hrest, Option.bind_eq_bind, Option.bind_some] at h
      split_ifs at h <;> cases h <;> simpa using hlen

theorem rank_le_of_zipWith [Zero α] {f : α → α → α} {a b t : Tensor α} (h : zipWith f a b = .ok t) :
    a.rank ≤ t.rank := by
  unfold zipWith at h
  split at h
  · rename_i s hs
    cases h
    obtain ⟨r, hr, rfl⟩ := Option.map_eq_some_iff.mp hs
    have hlen := length_le_of_alignReversed hr
    simpa [rank, ofFn] using hlen
  · cases h

end Tensor

namespace Noise
variable {K : Type} [ExactScalar K]

/-- Whitening leaves every vector and every matrix of as many rows as it is. -/
structure WhitensNothing (m : Noise K) : Prop where
  vec : ∀ v : Vec K, m.dim = .ok v.size → m.whiten (.ofVec v) = .ok (.ofVec v)
  mat : ∀ A : Mat K, m.dim = .ok A.rows → m.whiten (.ofMat A) = .ok (.ofMat A)

/-- Every deviation is one. -/
def AllOnes (m : Noise K) : Prop := ∀ i, i < m.sigmas.flatten.size → m.sigmas.flatten.get i = 1

/-- What a noise model owes to the factors that whiten with it. -/
structure Lawful (m : Noise K) : Prop where
  /-- Whitened twice, a vector is multiplied by the precisions. -/
  twice : ∀ v : Vec K, m.dim = .ok v.size → ∃ u w, m.whiten (.ofVec v) = .ok (.ofVec u) ∧
    m.whiten (.ofVec u) = .ok (.ofVec w) ∧ m.precisions.mul (.ofVec v) = .ok (.ofVec w)
  /-- The product of a whitened matrix with a vector is the whitened product, or there is neither. -/
  product : ∀ A : Mat K, m.dim = .ok A.rows → ∃ B, m.whiten (.ofMat A) = .ok (.ofMat B) ∧
    ∀ x : Vec K, (Tensor.ofMat B).matmul (.ofVec x) = (Tensor.ofMat A).matmul (.ofVec x) >>= m.whiten
  whitensNothing : m.isUnit = true → m.WhitensNothing
  allOnes : m.isUnit = true → m.AllOnes
  whitensNothing_unweighted : m.unweighted.WhitensNothing
  dim_unweighted : m.unweighted.dim = m.dim
  hardAt_unweighted : ∀ i, m.unweighted.HardAt i ↔ m.HardAt i
  sigmas_unweighted : m.unweighted.unweighted.sigmas = m.unweighted.sigmas

omit [ExactScalar K] in
theorem shape_of_dim {m : Noise K} {n : Nat} (h : m.dim = .ok n) : ∃ s, m.sigmas.shape = n :: s := by
  unfold dim Tensor.firstAxis at h
  split at h
  · rename_i s hs
    cases h
    exact ⟨s, hs⟩
  · cases h

omit [ExactScalar K] in
theorem modelRows_of_dim {m : Noise K} {n : Nat} (h : m.dim = .ok n) : ModelRows (some m) n := by
  intro m' hm'
  cases hm'
  obtain ⟨s, hs⟩ := shape_of_dim h
  rw [rows?, hs, List.head?_cons]

/-- Removing the weighting keeps the first axis, or its absence. -/
theorem dim_unweighted_eq (m : Noise K) : m.unweighted.dim = m.dim := by
  cases m with
  | constrained s w => rfl
  | _ => simp [dim, unweighted, ofRows, sigmas, Tensor.firstAxis]

omit [ExactScalar K] in
theorem singleton_of_dim {m : Noise K} {n : Nat} (hrank : m.sigmas.rank ≤ 1) (h : m.dim = .ok n) :
    m.sigmas.shape = [n] := by
  obtain ⟨s, hs⟩ := shape_of_dim h
  rw [Tensor.rank, hs, List.length_cons] at hrank
  rw [hs, List.length_eq_zero_iff.mp (Nat.le_zero.mp (Nat.le_of_succ_le_succ hrank))]

/-- Deviations along one axis are one for each row. -/
theorem onePerRow_of_dim {m : Noise K} {n : Nat} (hrank : m.sigmas.rank ≤ 1) (h : m.dim = .ok n) :
    LinearFactor.OnePerRow (some m) n := by
  intro m' hm'
  cases hm'
  rw [← size_scales_eq_flatten, size_scales (singleton_of_dim hrank h)]

theorem mul_precisions {m : Noise K} {s v : Vec K} (hs : m.sigmas = .ofVec s) (hv : s.size = v.size) :
    m.precisions.mul (.ofVec v) = .ok (.ofVec ((s.map fun a => m.inverse a * m.inverse a).mul v)) := by
  rw [precisions, hs, Tensor.map_ofVec]
  exact Tensor.zipWith_ofVec _ ((Vec.size_map _ s).trans hv)

/-- A scaling by one is no whitening. -/
theorem whitensNothing_of_isIdentity {m : Noise K}
    (h : ∀ n, m.dim = .ok n → LinearFactor.OnePerRow (some m) n ∧ (scaling (some m) n).IsIdentity n) :
    m.WhitensNothing := by
  constructor
  · intro v hv
    obtain ⟨hone, hid⟩ := h _ hv
    have hw := LinearFactor.whitenTensor_ofVec (modelRows_of_dim hv) hone
    rwa [hid.vec_eq] at hw
  · intro A hA
    obtain ⟨hone, hid⟩ := h _ hA
    have hw := LinearFactor.whitenTensor_ofMat (modelRows_of_dim hA) hone
    rwa [hid.mat_eq] at hw

/-- The scales of a model are the inverses of its deviations. A unit model has scales of one, so this
needs its deviations to be one too. -/
theorem scale_scaling {m : Noise K} {n k : Nat} (hones : m.isUnit = true → m.AllOnes)
    (hk : k < m.sigmas.flatten.size) :
    (scaling (some m) n).scale k = m.inverse (m.sigmas.flatten.get k) := by
  cases m with
  | unit s =>
    have hone : s.get k = 1 := hones rfl k hk
    show (1 : K) = 1 / s.get k
    rw [hone, div_one]
  | _ => exact Vec.get_map hk

section OneAxis
variable {m : Noise K} (hrank : m.sigmas.rank ≤ 1)
include hrank

theorem whiten_ofVec_of_dim {v : Vec K} (hv : m.dim = .ok v.size) :
    m.whiten (.ofVec v) = .ok (.ofVec ((scaling (some m) v.size).vec v)) :=
  LinearFactor.whitenTensor_ofVec (modelRows_of_dim hv) (onePerRow_of_dim hrank hv)

/-- The two scales that a row is multiplied by are the factors of its precision. -/
theorem whiten_twice (hones : m.isUnit = true → m.AllOnes) {v : Vec K} (hv : m.dim = .ok v.size) :
    ∃ u w, m.whiten (.ofVec v) = .ok (.ofVec u) ∧ m.whiten (.ofVec u) = .ok (.ofVec w) ∧
      m.precisions.mul (.ofVec v) = .ok (.ofVec w) := by
  obtain ⟨s, hs, hsigmas⟩ := Tensor.eq_ofVec (singleton_of_dim hrank hv)
  have hflat : m.sigmas.flatten = s := by rw [hsigmas, Tensor.flatten_ofVec]
  have hsize : (scaling (some m) v.size).size = v.size := LinearFactor.size_scaling (onePerRow_of_dim hrank hv)
  have hget : ∀ (u : Vec K) k, k < v.size →
      ((scaling (some m) v.size).vec u).get k = u.get k * m.inverse (s.get k) := by
    intro u k hk
    rw [RowScaling.vec, Vec.get_ofFn (hsize.symm ▸ hk), LinearFactor.source_scaling _ hk,
      scale_scaling hones (hflat ▸ hs.symm ▸ hk), hflat]
  have hu : ((scaling (some m) v.size).vec v).size = v.size := (Vec.size_ofFn _ _).trans hsize
  have htwice := whiten_ofVec_of_dim hrank (hu.symm ▸ hv)
  rw [hu] at htwice
  refine ⟨_, _, whiten_ofVec_of_dim hrank hv, htwice, ?_⟩
  rw [mul_precisions hsigmas hs]
  refine congrArg (fun w => Except.ok (Tensor.ofVec w)) (Vec.ext_get ?_ fun k hk => ?_)
  · rw [Vec.size_mul, Vec.size_map, hs, RowScaling.vec, Vec.size_ofFn, hsize]
  · have hk : k < s.size := by simpa [Vec.mul] using hk
    have hmap : k < (s.map fun a => m.inverse a * m.inverse a).size := (Vec.size_map _ s).symm ▸ hk
    rw [Vec.mul, Vec.get_zipWith hmap, Vec.get_map hk, hget _ k (hs ▸ hk), hget v k (hs ▸ hk)]
    ring

/-- A row of the product is made of one row of the matrix, so it may be scaled before or after. -/
theorem matmul_whiten {A : Mat K} (hA : m.dim = .ok A.rows) :
    ∃ B, m.whiten (.ofMat A) = .ok (.ofMat B) ∧
      ∀ x : Vec K, (Tensor.ofMat B).matmul (.ofVec x) = (Tensor.ofMat A).matmul (.ofVec x) >>= m.whiten := by
  have hone := onePerRow_of_dim hrank hA
  refine ⟨_, LinearFactor.whitenTensor_ofMat (modelRows_of_dim hA) hone, fun x => ?_⟩
  by_cases hx : A.cols = x.size
  · have hrows : (A.mulVec x).size = A.rows := Mat.size_mulVec A x
    have hB : ((scaling (some m) A.rows).mat A).cols = x.size := hx
    have hw := whiten_ofVec_of_dim hrank (hrows.symm ▸ hA)
    rw [hrows] at hw
    rw [Tensor.matmul_ofMat_ofVec hB, Tensor.matmul_ofMat_ofVec hx,
      RowScaling.mulVec_mat (LinearFactor.into_scaling hone)]
    exact hw.symm
  · have hB : ((scaling (some m) A.rows).mat A).cols ≠ x.size := hx
    rw [Tensor.matmul_ofMat_ofVec_of_ne hB, Tensor.matmul_ofMat_ofVec_of_ne hx]
    rfl

/-- Deviations along one axis make a lawful model, if they are ones where whitening is said to change
nothing. -/
theorem lawful_of_rank (hones : m.isUnit = true → m.AllOnes) : m.Lawful where
  twice _ hv := whiten_twice hrank hones hv
  product _ hA := matmul_whiten hrank hA
  whitensNothing hunit := by
    refine whitensNothing_of_isIdentity fun n hn => ⟨onePerRow_of_dim hrank hn, ?_⟩
    refine LinearFactor.isIdentity_scaling (modelRows_of_dim hn) ?_
    rw [needsWhitening, hunit]
    rfl
  allOnes := hones
  whitensNothing_unweighted := by
    refine whitensNothing_of_isIdentity fun n hn => ?_
    have hone := onePerRow_of_dim hrank (m.dim_unweighted_eq ▸ hn)
    exact ⟨LinearFactor.onePerRow_unweighted hone, isIdentity_unweighted hone⟩
  dim_unweighted := m.dim_unweighted_eq
  hardAt_unweighted := m.hardAt_unweighted
  sigmas_unweighted := by rw [m.unweighted_unweighted]

end OneAxis

/-- The precisions multiply a vector to a vector only if the deviations have no second axis. -/
theorem Lawful.rank_le {m : Noise K} (h : m.Lawful) : m.sigmas.rank ≤ 1 := by
  cases hd : m.dim with
  | error e =>
    unfold dim Tensor.firstAxis at hd
    split at hd
    · cases hd
    · rename_i hs
      simp [Tensor.rank, hs]
  | ok n =>
    have hv : m.dim = .ok (Vec.zeros n : Vec K).size := by rw [Vec.size_zeros, hd]
    obtain ⟨-, w, -, -, hprec⟩ := h.twice _ hv
    exact Tensor.rank_le_of_zipWith hprec

/-- Which models are lawful. -/
theorem lawful_iff {m : Noise K} : m.Lawful ↔ m.sigmas.rank ≤ 1 ∧ (m.isUnit = true → m.AllOnes) :=
  ⟨fun h => ⟨h.rank_le, h.allOnes⟩, fun ⟨hrank, hones⟩ => lawful_of_rank hrank hones⟩

theorem lawful_diagonal (s : Vec K) : (diagonal s).Lawful :=
  lawful_iff.mpr ⟨le_rfl, fun h _ => LinearFactor.get_of_all_same h⟩

theorem lawful_isotropic (s : Vec K) : (isotropic s).Lawful :=
  lawful_iff.mpr ⟨le_rfl, fun h _ => LinearFactor.get_of_all_same h⟩

theorem lawful_unit_iff (s : Vec K) : (unit s).Lawful ↔ ∀ i, i < s.size → s.get i = 1 :=
  lawful_iff.trans ⟨fun h => h.2 rfl, fun h => ⟨le_rfl, fun _ => h⟩⟩

theorem lawful_constrained_iff (s : Tensor K) (w : K) : (constrained s w).Lawful ↔ s.rank ≤ 1 :=
  lawful_iff.trans (and_iff_left fun hunit => absurd hunit Bool.false_ne_true)

/-- **Every model is lawful that is made of deviations along one axis, or of a number of rows; a unit model
exactly if its deviations are ones, a constrained model exactly if its array has no second axis.** -/
theorem lawful_built :
    (∀ s : Vec K, (diagonal s).Lawful) ∧ (∀ s : Vec K, (isotropic s).Lawful) ∧
      (∀ (n : Nat) (a : K), ∃ m, ofDeviation n a = .ok m ∧ m.Lawful) ∧
      (∀ n : Nat, ∃ m : Noise K, unitModel n = .ok m ∧ m.Lawful) ∧
      (∀ s : Vec K, (unit s).Lawful ↔ ∀ i, i < s.size → s.get i = 1) ∧
      ∀ (s : Tensor K) (w : K), (constrained s w).Lawful ↔ s.rank ≤ 1 := by
  refine ⟨lawful_diagonal, lawful_isotropic, fun n a => ⟨_, if_pos (Int.natCast_nonneg n), lawful_isotropic _⟩,
    fun n => ⟨_, if_pos (Int.natCast_nonneg n), ?_⟩, lawful_unit_iff, lawful_constrained_iff⟩
  refine (lawful_unit_iff _).mpr fun i hi => ?_
  exact Vec.get_ofFn (by simpa using hi)

/-- A unit model of deviation two says that it changes nothing, and it does change nothing: its precision
of a quarter is not what whitening multiplies by. -/
theorem whiten_unit_two :
    (unit ⟨#[2]⟩ : Noise ℚ).isUnit = true ∧ ¬ (unit ⟨#[2]⟩ : Noise ℚ).AllOnes ∧
      (unit ⟨#[2]⟩ : Noise ℚ).whiten (.ofVec ⟨#[1]⟩) = .ok (.ofVec ⟨#[1]⟩) ∧
      (unit ⟨#[2]⟩ : Noise ℚ).precisions.mul (.ofVec ⟨#[1]⟩) = .ok (.ofVec ⟨#[1 / 4]⟩) := by
  refine ⟨rfl, fun h => ?_, rfl, ?_⟩
  · have hone : (⟨#[2]⟩ : Vec ℚ).get 0 = 1 := h 0 Nat.one_pos
    revert hone
    decide +kernel
  · have hmul := mul_precisions (m := (unit ⟨#[2]⟩ : Noise ℚ)) (v := ⟨#[1]⟩) rfl rfl
    rw [hmul]
    refine congrArg (fun a => Except.ok (Tensor.ofVec ⟨a⟩)) ?_
    decide +kernel

end Noise
end BundleAdjustment
