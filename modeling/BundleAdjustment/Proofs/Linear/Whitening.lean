import BundleAdjustment.Proofs.Coordinates
import BundleAdjustment.Proofs.Linear.Deviations

/-!
Whitening as a matrix.

Whatever the noise model, a whitened array has each of its rows from one row of the given array,
times a number: a `RowScaling`. With one deviation for each row, row `k` comes from row `k`; the
several deviations of a single row all come from that row. A factor's `whitening` is the matrix
`W` of its scaling, and the whitened system is `W A`, `W b` (`whitenedSystem_eq`), which is also
what the factor itself is when its model is known to change nothing (`whitenedTo_self`).

With one deviation for each row, whitening always succeeds and can be repeated; twice over it
multiplies by `Wᵀ W` (`coords_vec_twice`). Without, nothing can be whitened twice
(`onePerRow_of_whitenTwice`).
-/
namespace BundleAdjustment
open Matrix

/-- Row `k` of a scaled array is row `source k` of the array times `scale k`. -/
structure RowScaling (K : Type) where
  size : Nat
  source : Nat → Nat
  scale : Nat → K

namespace RowScaling
variable {K : Type} [ExactScalar K]

def vec (s : RowScaling K) (v : Vec K) : Vec K :=
  Vec.ofFn s.size fun k => v.get (s.source k) * s.scale k

def mat (s : RowScaling K) (A : Mat K) : Mat K :=
  Mat.ofFn s.size A.cols fun k j => A.get (s.source k) j * s.scale k

/-- The scaling of arrays with that many rows, as a linear map. -/
def matrix (s : RowScaling K) (rows : Nat) : Matrix (Fin s.size) (Fin rows) K :=
  fun k i => if s.source k = i then s.scale k else 0

/-- Every row comes from a row that is there. -/
def Into (s : RowScaling K) (rows : Nat) : Prop := ∀ k, k < s.size → s.source k < rows

/-- Scaled rows give scaled numbers. -/
theorem get_mat_mulVec {s : RowScaling K} {A : Mat K} (h : s.Into A.rows) (x : Vec K) {k : Nat}
    (hk : k < s.size) : ((s.mat A).mulVec x).get k = (A.mulVec x).get (s.source k) * s.scale k := by
  have hk' : k < (s.mat A).rows := hk
  rw [Mat.get_mulVec hk', Mat.get_mulVec (h k hk), Scalar.sum_eq_range, Scalar.sum_eq_range, Finset.sum_mul]
  refine Finset.sum_congr rfl fun j hj => ?_
  have hj : j < A.cols := Finset.mem_range.mp hj
  rw [mat, Mat.get_ofFn hk hj]
  ring

theorem mulVec_mat {s : RowScaling K} {A : Mat K} (h : s.Into A.rows) (x : Vec K) :
    (s.mat A).mulVec x = s.vec (A.mulVec x) := by
  refine Vec.ext_get ((Mat.size_mulVec _ _).trans (Vec.size_ofFn _ _).symm) fun k hk => ?_
  have hk : k < s.size := lt_of_lt_of_eq hk (Mat.size_mulVec (s.mat A) x)
  rw [get_mat_mulVec h x hk, vec, Vec.get_ofFn hk]

theorem matrix_mulVec {s : RowScaling K} {rows : Nat} (h : s.Into rows) (φ : Nat → K) (k : Fin s.size) :
    (s.matrix rows *ᵥ fun i : Fin rows => φ i) k = φ (s.source k) * s.scale k := by
  have hk := h k k.isLt
  show ∑ i : Fin rows, (if s.source k = i then s.scale k else 0) * φ i = _
  rw [Finset.sum_eq_single (⟨s.source k, hk⟩ : Fin rows)]
  · rw [if_pos rfl, mul_comm]
  · intro i _ hi
    rw [if_neg fun he => hi (Fin.ext he.symm), zero_mul]
  · intro hn
    exact absurd (Finset.mem_univ _) hn

theorem coords_vec {s : RowScaling K} {rows : Nat} (h : s.Into rows) (v : Vec K) :
    (s.vec v).coords s.size = s.matrix rows *ᵥ v.coords rows := by
  rw [vec, Vec.coords_ofFn]
  exact funext fun k => (matrix_mulVec h v.get k).symm

structure IsIdentity (s : RowScaling K) (rows : Nat) : Prop where
  size : s.size = rows
  source : ∀ k, k < rows → s.source k = k
  scale : ∀ k, k < rows → s.scale k = 1

def identity (rows : Nat) : RowScaling K := ⟨rows, id, fun _ => 1⟩

theorem isIdentity_identity (rows : Nat) : (identity rows : RowScaling K).IsIdentity rows :=
  ⟨rfl, fun _ _ => rfl, fun _ _ => rfl⟩

theorem IsIdentity.into {s : RowScaling K} {rows : Nat} (h : s.IsIdentity rows) : s.Into rows := by
  intro k hk
  rw [h.size] at hk
  rw [h.source k hk]
  exact hk

theorem IsIdentity.vec_eq {s : RowScaling K} {v : Vec K} (h : s.IsIdentity v.size) : s.vec v = v := by
  refine Vec.ext_get (by rw [vec, Vec.size_ofFn, h.size]) fun k hk => ?_
  have hk' : k < s.size := by simpa [vec] using hk
  have hv : k < v.size := h.size ▸ hk'
  rw [vec, Vec.get_ofFn hk', h.source k hv, h.scale k hv, mul_one]

theorem IsIdentity.mat_eq {s : RowScaling K} {A : Mat K} (h : s.IsIdentity A.rows) : s.mat A = A := by
  refine Mat.ext_get h.size rfl fun k j (hk : k < s.size) (hj : j < A.cols) => ?_
  have hA : k < A.rows := h.size ▸ hk
  rw [mat, Mat.get_ofFn hk hj, h.source k hA, h.scale k hA, mul_one]

theorem vec_neg (s : RowScaling K) {v : Vec K} (h : s.Into v.size) : s.vec (-v) = -s.vec v := by
  refine Vec.ext_get ?_ fun k hk => ?_
  · rw [Vec.size_neg, vec, vec, Vec.size_ofFn, Vec.size_ofFn]
  · have hk : k < s.size := by simpa [vec] using hk
    have hv : k < (s.vec v).size := by simpa [vec] using hk
    rw [Vec.get_neg hv, vec, vec, Vec.get_ofFn hk, Vec.get_ofFn hk, Vec.get_neg (h k hk), neg_mul]

theorem vec_zeros (s : RowScaling K) (n : Nat) : s.vec (Vec.zeros n) = Vec.zeros s.size :=
  Vec.ofFn_congr fun k _ => by rw [Vec.get_zeros, zero_mul]

end RowScaling

namespace Noise
variable {K : Type} [ExactScalar K]

/-- How a model scales the rows of arrays with that many rows. -/
def scaling (model : Option (Noise K)) (rows : Nat) : RowScaling K :=
  match model with
  | none => .identity rows
  | some (.unit _) => .identity rows
  | some m => ⟨m.scales.size, fun k => if rows = 1 then 0 else k, m.scales.get⟩

theorem scaling_some {m : Noise K} (rows : Nat) (hu : ∀ u, m ≠ unit u) :
    scaling (some m) rows = ⟨m.scales.size, fun k => if rows = 1 then 0 else k, m.scales.get⟩ := by
  cases m with
  | unit u => exact absurd rfl (hu u)
  | _ => rfl

/-! ### Whitened arrays -/

/-- A single number against several: it goes with each of them. -/
theorem zipWith_ofVec_one {u v : Vec K} (f : K → K → K) (h : u.size = 1) :
    Tensor.zipWith f (.ofVec u) (.ofVec v) =
      .ok (.ofVec (Vec.ofFn v.size fun k => f (u.get 0) (v.get k))) := by
  have ha : Tensor.align [u.size] [v.size] = some [v.size] := by
    by_cases h1 : v.size = 1
    · simp [Tensor.align, Tensor.alignReversed, h, h1]
    · have h1' : ¬ 1 = v.size := fun h => h1 h.symm
      simp [Tensor.align, Tensor.alignReversed, h, h1, h1']
  simp only [Tensor.zipWith, Tensor.shape_ofVec, ha, Tensor.ofFn_singleton]
  congr 2
  apply Vec.ofFn_congr
  intro k hk
  have hv : Tensor.restrict [v.size] [k] = [k] := by
    have h0 : (if v.size = 1 then 0 else k) = k := by split <;> omega
    simp [Tensor.restrict, h0]
  have hu : Tensor.restrict [u.size] [k] = [0] := by simp [Tensor.restrict, h]
  rw [hu, hv, Tensor.get_ofVec, Tensor.get_ofVec]

/-- A single row against a column of several numbers: it is repeated for each of them. -/
theorem mul_ofMat_ofColumn_one {A : Mat K} {v : Vec K} (h : A.rows = 1) :
    (Tensor.ofMat A).mul (.ofColumn v 1) =
      .ok (.ofMat (Mat.ofFn v.size A.cols fun k j => A.get 0 j * v.get k)) := by
  have ha : Tensor.align (Tensor.ofMat A).shape (Tensor.ofColumn v 1).shape = some [v.size, A.cols] := by
    by_cases h1 : v.size = 1
    · simp [Tensor.align, Tensor.alignReversed, Tensor.ofColumn, h, h1]
    · have h1' : ¬ 1 = v.size := fun h => h1 h.symm
      simp [Tensor.align, Tensor.alignReversed, Tensor.ofColumn, h, h1, h1']
  simp only [Tensor.mul, Tensor.zipWith, ha, Tensor.ofFn_pair]
  congr 2
  apply Mat.ofFn_congr
  intro k j hk hj
  have hA : Tensor.restrict [A.rows, A.cols] [k, j] = [0, j] := by
    have h1 : (if A.cols = 1 then 0 else j) = j := by split <;> omega
    simp [Tensor.restrict, h, h1]
  have hv : Tensor.restrict [v.size, 1] [k, j] = [k, 0] := by
    have h0 : (if v.size = 1 then 0 else k) = k := by split <;> omega
    simp [Tensor.restrict, h0]
  have hs : (Tensor.ofColumn v 1).shape = [v.size, 1] := rfl
  rw [Tensor.shape_ofMat, hs, hA, hv, Tensor.get_ofMat, Tensor.get_ofColumn_one]

/-- A matrix goes with a column as its rows do with the column's entries. -/
theorem align_column (r c N : Nat) :
    Tensor.align [r, c] [N, 1] = (Tensor.alignReversed [r] [N]).map fun t => (c :: t).reverse := by
  show (Tensor.alignReversed [c, r] [1, N]).map List.reverse = _
  rw [Tensor.alignReversed]
  cases Tensor.alignReversed [r] [N] with
  | none => rfl
  | some t => simp

theorem whiten_ofVec_eq {m : Noise K} {v : Vec K} {t : Tensor K} (hu : ∀ u, m ≠ unit u)
    (hm : m.rows? = some v.size) (h : m.whiten (.ofVec v) = .ok t) :
    t = .ofVec ((scaling (some m) v.size).vec v) ∧ (scaling (some m) v.size).Into v.size := by
  obtain ⟨q, hq⟩ := size_scales_of_rows? hm
  rw [whiten_of_rows (Tensor.shape_ofVec v) hm hu] at h
  have h' : Tensor.zipWith (· * ·) (.ofVec v) (.ofVec m.scales) = .ok t := h
  have hn : v.size = 1 ∨ v.size = m.scales.size := by
    cases ha : Tensor.alignReversed [v.size] [m.scales.size] with
    | none => simp [Tensor.zipWith, Tensor.align, ha] at h'
    | some s => exact Tensor.sizes_of_align hq ha
  rw [scaling_some _ hu]
  rcases hn with h1 | h1
  · rw [zipWith_ofVec_one _ h1] at h'
    refine ⟨?_, fun k _ => ?_⟩
    · simpa [RowScaling.vec, h1] using h'.symm
    · simp [h1]
  · rw [Tensor.zipWith_ofVec _ h1] at h'
    have hs : ∀ k, k < m.scales.size → (if v.size = 1 then 0 else k) = k := by
      intro k hk
      split <;> omega
    refine ⟨?_, fun k (hk : k < m.scales.size) => ?_⟩
    · cases h'
      congr 1
      simp only [RowScaling.vec, Vec.zipWith, h1]
      exact Vec.ofFn_congr fun k hk => by rw [← h1, hs k hk]
    · show (if v.size = 1 then 0 else k) < v.size
      rw [hs k hk]
      omega

theorem whiten_ofMat_eq {m : Noise K} {A : Mat K} {t : Tensor K} (hu : ∀ u, m ≠ unit u)
    (hm : m.rows? = some A.rows) (h : m.whiten (.ofMat A) = .ok t) :
    t = .ofMat ((scaling (some m) A.rows).mat A) := by
  obtain ⟨q, hq⟩ := size_scales_of_rows? hm
  rw [whiten_of_rows (Tensor.shape_ofMat A) hm hu] at h
  have h' : (Tensor.ofMat A).mul (.ofColumn m.scales 1) = .ok t := h
  have hn : A.rows = 1 ∨ A.rows = m.scales.size := by
    cases ha : Tensor.alignReversed [A.rows] [m.scales.size] with
    | none =>
      have hn := align_column A.rows A.cols m.scales.size
      rw [ha] at hn
      have hs : (Tensor.ofColumn m.scales 1).shape = [m.scales.size, 1] := rfl
      simp [Tensor.mul, Tensor.zipWith, hs, hn] at h'
    | some s => exact Tensor.sizes_of_align hq ha
  rw [scaling_some _ hu]
  rcases hn with h1 | h1
  · rw [mul_ofMat_ofColumn_one h1] at h'
    simpa [RowScaling.mat, h1] using h'.symm
  · rw [Tensor.mul_ofMat_ofColumn h1] at h'
    cases h'
    congr 1
    simp only [RowScaling.mat, Mat.scaleRows, h1]
    refine Mat.ofFn_congr fun k j hk _ => ?_
    have hs : (if m.scales.size = 1 then 0 else k) = k := by split <;> omega
    rw [hs]

end Noise

namespace LinearFactor
variable {K : Type} [ExactScalar K]

/-- How a factor's model scales its rows. -/
def scaling (f : LinearFactor K) : RowScaling K := Noise.scaling f.model f.rows

/-- The matrix `W` of a factor's whitening. -/
def whitening (f : LinearFactor K) : Matrix (Fin f.scaling.size) (Fin f.rows) K := f.scaling.matrix f.rows

theorem whitenVec_eq {model : Option (Noise K)} {v u : Vec K} (hm : ModelRows model v.size)
    (h : whitenVec model v = .ok u) :
    u = (Noise.scaling model v.size).vec v ∧ (Noise.scaling model v.size).Into v.size := by
  have hid := RowScaling.isIdentity_identity (K := K) v.size
  cases model with
  | none =>
    cases h
    exact ⟨hid.vec_eq.symm, hid.into⟩
  | some m =>
    by_cases hu : ∃ u, m = .unit u
    · obtain ⟨s, rfl⟩ := hu
      cases h
      exact ⟨hid.vec_eq.symm, hid.into⟩
    · have hu' : ∀ u, m ≠ .unit u := fun u hm => hu ⟨u, hm⟩
      simp only [whitenVec, whitenTensor, bind, Except.bind] at h
      cases ht : m.whiten (.ofVec v) with
      | error e => simp [ht] at h
      | ok t =>
        obtain ⟨rfl, hi⟩ := Noise.whiten_ofVec_eq hu' (hm m rfl) ht
        simp only [ht, Tensor.toVec_ofVec, Except.ok.injEq] at h
        exact ⟨h.symm, hi⟩

theorem whitenMat_eq {model : Option (Noise K)} {A B : Mat K} (hm : ModelRows model A.rows)
    (h : whitenMat model A = .ok B) : B = (Noise.scaling model A.rows).mat A := by
  have hid := RowScaling.isIdentity_identity (K := K) A.rows
  cases model with
  | none =>
    cases h
    exact hid.mat_eq.symm
  | some m =>
    by_cases hu : ∃ u, m = .unit u
    · obtain ⟨s, rfl⟩ := hu
      cases h
      exact hid.mat_eq.symm
    · have hu' : ∀ u, m ≠ .unit u := fun u hm => hu ⟨u, hm⟩
      simp only [whitenMat, whitenTensor, bind, Except.bind] at h
      cases ht : m.whiten (.ofMat A) with
      | error e => simp [ht] at h
      | ok t =>
        have hB := Noise.whiten_ofMat_eq hu' (hm m rfl) ht
        subst hB
        simp only [ht, Tensor.toMat_ofMat, Except.ok.injEq] at h
        exact h.symm

/-! ### Whitened factors -/

/-- `g` is what `f` becomes when its weighting is folded in. -/
structure WhitenedTo (f g : LinearFactor K) : Prop where
  terms : g.terms.entries = f.terms.entries.map fun e => (e.1, f.scaling.mat e.2)
  rhs : g.rhs = f.scaling.vec f.rhs
  into : f.scaling.Into f.rows

theorem whitenedSystem_eq {f : LinearFactor K} {t : Table Key (Mat K)} {b : Vec K}
    (h : f.whitenedSystem = .ok (t, b)) :
    t.entries = f.terms.entries.map (fun e => (e.1, f.scaling.mat e.2)) ∧ b = f.scaling.vec f.rhs ∧
      f.scaling.Into f.rows := by
  simp only [whitenedSystem, bind, Except.bind] at h
  cases ht : f.terms.mapValuesM fun _ A => whitenMat f.model A with
  | error e => simp [ht] at h
  | ok t' =>
    cases hb : whitenVec f.model f.rhs with
    | error e => simp [ht, hb] at h
    | ok b' =>
      simp only [ht, hb, pure, Except.pure, Except.ok.injEq, Prod.mk.injEq] at h
      obtain ⟨rfl, rfl⟩ := h
      refine ⟨?_, whitenVec_eq f.model_rows hb⟩
      refine Table.entries_of_mapValuesM (g := fun _ A => f.scaling.mat A) ?_ ht
      intro e he B hB
      have hr := f.rows_eq e he
      have hm := whitenMat_eq (hr ▸ f.model_rows) hB
      rw [hr] at hm
      exact hm

theorem whitenedTo_of_whiten {f g : LinearFactor K} (h : f.whiten = .ok g) : f.WhitenedTo g := by
  simp only [whiten, bind, Except.bind] at h
  cases hs : f.whitenedSystem with
  | error e => simp [hs] at h
  | ok s =>
    obtain ⟨t, b⟩ := s
    simp only [hs, withTerms] at h
    split at h
    · obtain ⟨hterms, hrhs, -⟩ := parts_of_ofTerms h
      obtain ⟨ht, hb, hi⟩ := whitenedSystem_eq hs
      exact ⟨hterms ▸ ht, hrhs ▸ hb, hi⟩
    · cases h

theorem get_of_all_same {v : Vec K} {a : K} (h : v.all (fun b => Scalar.same b a) = true) {i : Nat}
    (hi : i < v.size) : v.get i = a := by
  simp only [Vec.all, List.all_eq_true, List.mem_range, Scalar.same_eq_decide, decide_eq_true_eq] at h
  exact h i hi

/-- Deviations that are all one scale by one. -/
theorem isIdentity_of_ones {m : Noise K} {n : Nat} (s : Vec K) (hs : m.sigmas = .ofVec s)
    (hm : m.rows? = some n) (hu : ∀ u, m ≠ .unit u) (hi : ∀ a : K, m.inverse a = 1 / a)
    (h1 : s.all (fun a => Scalar.same a 1) = true) :
    (Noise.scaling (some m) n).IsIdentity n := by
  have hn : s.size = n := by simpa [Noise.rows?, hs] using hm
  have hsize : m.scales.size = n := by
    rw [Noise.size_scales_eq_flatten, hs, Tensor.flatten_ofVec, hn]
  rw [Noise.scaling_some _ hu]
  refine ⟨hsize, fun k hk => ?_, fun k hk => ?_⟩
  · show (if n = 1 then 0 else k) = k
    split <;> omega
  · show m.scales.get k = 1
    rw [Noise.scales, hs, Tensor.flatten_ofVec, Vec.get_map (hn ▸ hk), hi, get_of_all_same h1 (hn ▸ hk),
      div_one]

/-- A model that is known to change nothing scales by one. -/
theorem isIdentity_scaling {model : Option (Noise K)} {n : Nat} (hm : ModelRows model n)
    (h : Noise.needsWhitening model = false) : (Noise.scaling model n).IsIdentity n := by
  cases model with
  | none => exact RowScaling.isIdentity_identity _
  | some m =>
    have hr := hm m rfl
    simp only [Noise.needsWhitening, Bool.not_eq_eq_eq_not, Bool.not_false] at h
    cases m with
    | unit s => exact RowScaling.isIdentity_identity _
    | diagonal s => exact isIdentity_of_ones s rfl hr (by simp) (fun _ => rfl) h
    | isotropic s => exact isIdentity_of_ones s rfl hr (by simp) (fun _ => rfl) h
    | constrained s w => simp [Noise.isUnit] at h

/-- A scaling by one leaves a factor's terms as they are. -/
theorem map_scaling_of_isIdentity {f : LinearFactor K} (hid : f.scaling.IsIdentity f.rows) :
    (f.terms.entries.map fun e => (e.1, f.scaling.mat e.2)) = f.terms.entries := by
  have hmap : ∀ e ∈ f.terms.entries, (e.1, f.scaling.mat e.2) = e := by
    intro e he
    rw [RowScaling.IsIdentity.mat_eq ((f.rows_eq e he).symm ▸ hid)]
  rw [List.map_congr_left hmap, List.map_id']

/-- A factor whose model is known to change nothing is its own whitened form. -/
theorem whitenedTo_self {f : LinearFactor K} (h : Noise.needsWhitening f.model = false) :
    f.WhitenedTo f := by
  have hid : f.scaling.IsIdentity f.rows := isIdentity_scaling f.model_rows h
  exact ⟨(map_scaling_of_isIdentity hid).symm, hid.vec_eq.symm, hid.into⟩

/-! ### One deviation for each row -/

theorem size_scaling {model : Option (Noise K)} {rows : Nat} (h : OnePerRow model rows) :
    (Noise.scaling model rows).size = rows := by
  cases model with
  | none => rfl
  | some m =>
    cases m with
    | unit s => rfl
    | _ => exact (Noise.size_scales_eq_flatten _).trans (h _ rfl)

theorem source_scaling (model : Option (Noise K)) {rows k : Nat} (hk : k < rows) :
    (Noise.scaling model rows).source k = k := by
  have hone : (if rows = 1 then 0 else k) = k := by split <;> omega
  cases model with
  | none => rfl
  | some m =>
    cases m with
    | unit s => rfl
    | _ => exact hone

theorem into_scaling {model : Option (Noise K)} {rows : Nat} (h : OnePerRow model rows) :
    (Noise.scaling model rows).Into rows := by
  intro k hk
  have hk : k < rows := size_scaling h ▸ hk
  rwa [source_scaling model hk]

theorem whitenTensor_ofVec {model : Option (Noise K)} {v : Vec K} (hm : ModelRows model v.size)
    (h : OnePerRow model v.size) :
    whitenTensor model (.ofVec v) = .ok (.ofVec ((Noise.scaling model v.size).vec v)) := by
  have hid := (RowScaling.isIdentity_identity (K := K) v.size).vec_eq
  cases model with
  | none => exact congrArg (fun u => Except.ok (Tensor.ofVec u)) hid.symm
  | some m =>
    by_cases hu : ∃ s, m = .unit s
    · obtain ⟨s, rfl⟩ := hu
      exact congrArg (fun u => Except.ok (Tensor.ofVec u)) hid.symm
    · have hu' : ∀ s, m ≠ .unit s := fun s hs => hu ⟨s, hs⟩
      have hsize : v.size = m.scales.size := (h m rfl).symm.trans (Noise.size_scales_eq_flatten m).symm
      have hok : m.whiten (.ofVec v) = .ok (.ofVec (v.zipWith (· * ·) m.scales)) := by
        rw [Noise.whiten_of_rows (Tensor.shape_ofVec v) (hm m rfl) hu']
        exact Tensor.zipWith_ofVec (· * ·) hsize
      rw [← (Noise.whiten_ofVec_eq hu' (hm m rfl) hok).1]
      exact hok

theorem whitenTensor_ofMat {model : Option (Noise K)} {A : Mat K} (hm : ModelRows model A.rows)
    (h : OnePerRow model A.rows) :
    whitenTensor model (.ofMat A) = .ok (.ofMat ((Noise.scaling model A.rows).mat A)) := by
  have hid := (RowScaling.isIdentity_identity (K := K) A.rows).mat_eq
  cases model with
  | none => exact congrArg (fun B => Except.ok (Tensor.ofMat B)) hid.symm
  | some m =>
    by_cases hu : ∃ s, m = .unit s
    · obtain ⟨s, rfl⟩ := hu
      exact congrArg (fun B => Except.ok (Tensor.ofMat B)) hid.symm
    · have hu' : ∀ s, m ≠ .unit s := fun s hs => hu ⟨s, hs⟩
      have hsize : A.rows = m.scales.size := (h m rfl).symm.trans (Noise.size_scales_eq_flatten m).symm
      have hok : m.whiten (.ofMat A) = .ok (.ofMat (A.scaleRows m.scales.get)) := by
        rw [Noise.whiten_of_rows (Tensor.shape_ofMat A) (hm m rfl) hu']
        exact Tensor.mul_ofMat_ofColumn hsize
      rw [← Noise.whiten_ofMat_eq hu' (hm m rfl) hok]
      exact hok

theorem whitenedSystem_of_onePerRow {f : LinearFactor K} (h : OnePerRow f.model f.rows) :
    ∃ t, f.whitenedSystem = .ok (t, f.scaling.vec f.rhs) ∧
      t.entries = f.terms.entries.map fun e => (e.1, f.scaling.mat e.2) := by
  have hterms : ∀ e ∈ f.terms.entries, whitenMat f.model e.2 = .ok (f.scaling.mat e.2) := by
    intro e he
    have hr := f.rows_eq e he
    have hmat := whitenTensor_ofMat (A := e.2) (hr ▸ f.model_rows) (by rw [hr]; exact h)
    rw [hr] at hmat
    rw [whitenMat, hmat]
    rfl
  have hrhs : whitenVec f.model f.rhs = .ok (f.scaling.vec f.rhs) := by
    rw [whitenVec, whitenTensor_ofVec f.model_rows h]
    rfl
  refine ⟨f.terms.mapValues fun _ A => f.scaling.mat A, ?_, rfl⟩
  rw [whitenedSystem, Table.mapValuesM_of_forall (g := fun _ A => f.scaling.mat A) hterms, hrhs]
  rfl

/-- `Wᵀ W` is diagonal. -/
theorem whitening_gram {f : LinearFactor K} (h : OnePerRow f.model f.rows) :
    f.whiteningᵀ * f.whitening = Matrix.diagonal fun i : Fin f.rows => f.scaling.scale i * f.scaling.scale i := by
  funext i j
  have hsum : (f.whiteningᵀ * f.whitening) i j = ∑ k ∈ Finset.range f.scaling.size,
      (if f.scaling.source k = i then f.scaling.scale k else 0) *
        (if f.scaling.source k = j then f.scaling.scale k else 0) := by
    rw [Finset.sum_range]
    rfl
  rw [hsum, scaling, size_scaling h, Finset.sum_eq_single (i : Nat)]
  · rw [source_scaling f.model i.isLt, if_pos rfl, Matrix.diagonal_apply]
    by_cases hij : i = j
    · rw [if_pos hij, if_pos (congrArg Fin.val hij)]
    · rw [if_neg hij, if_neg fun hv => hij (Fin.ext hv), mul_zero]
  · intro k hk hki
    rw [source_scaling f.model (Finset.mem_range.mp hk), if_neg hki, zero_mul]
  · intro hi
    exact absurd (Finset.mem_range.mpr i.isLt) hi

theorem size_vec_scaling {f : LinearFactor K} (h : OnePerRow f.model f.rows) (v : Vec K) :
    (f.scaling.vec v).size = f.rows :=
  (Vec.size_ofFn _ _).trans (size_scaling h)

theorem whitenTensor_of_onePerRow {f : LinearFactor K} (h : OnePerRow f.model f.rows) {v : Vec K}
    (hv : v.size = f.rows) : whitenTensor f.model (.ofVec v) = .ok (.ofVec (f.scaling.vec v)) := by
  have hw := whitenTensor_ofVec (v := v) (hv.symm ▸ f.model_rows) (hv.symm ▸ h)
  rw [hv] at hw
  exact hw

theorem whitenTwice_of_onePerRow {f : LinearFactor K} (h : OnePerRow f.model f.rows) {v : Vec K}
    (hv : v.size = f.rows) : whitenTwice f.model v = .ok (f.scaling.vec (f.scaling.vec v)) := by
  have hw : ∀ u : Vec K, u.size = f.rows → whitenVec f.model u = .ok (f.scaling.vec u) := by
    intro u hu
    rw [whitenVec, whitenTensor_of_onePerRow h hu]
    rfl
  rw [whitenTwice, hw v hv]
  exact hw _ (size_vec_scaling h v)

theorem into_of_onePerRow {f : LinearFactor K} (h : OnePerRow f.model f.rows) : f.scaling.Into f.rows :=
  into_scaling h

theorem get_vec_scaling {f : LinearFactor K} (h : OnePerRow f.model f.rows) (v : Vec K) {k : Nat}
    (hk : k < f.rows) : (f.scaling.vec v).get k = v.get k * f.scaling.scale k := by
  have hk' : k < f.scaling.size := (size_scaling h).symm ▸ hk
  rw [RowScaling.vec, Vec.get_ofFn hk', scaling, source_scaling f.model hk]

theorem get_mat_scaling {f : LinearFactor K} (h : OnePerRow f.model f.rows) (A : Mat K) {k j : Nat}
    (hk : k < f.rows) (hj : j < A.cols) : (f.scaling.mat A).get k j = A.get k j * f.scaling.scale k := by
  have hk' : k < f.scaling.size := (size_scaling h).symm ▸ hk
  rw [RowScaling.mat, Mat.get_ofFn hk' hj, scaling, source_scaling f.model hk]

/-- A vector that is whitened twice is multiplied by `Wᵀ W`. -/
theorem coords_vec_twice {f : LinearFactor K} (h : OnePerRow f.model f.rows) (v : Vec K) :
    (f.scaling.vec (f.scaling.vec v)).coords f.rows = (f.whiteningᵀ * f.whitening) *ᵥ v.coords f.rows := by
  funext i
  rw [whitening_gram h, Matrix.mulVec_diagonal, Vec.coords_apply, get_vec_scaling h _ i.isLt,
    get_vec_scaling h _ i.isLt, Vec.coords_apply]
  ring

/-- A vector can be whitened twice only with one deviation for each row. -/
theorem onePerRow_of_whitenTwice {model : Option (Noise K)} {v u : Vec K} (hm : ModelRows model v.size)
    (h : whitenTwice model v = .ok u) : OnePerRow model v.size := by
  obtain ⟨w, hw, hu⟩ := bind_eq_ok.mp h
  by_contra hn
  obtain ⟨m, rfl, hne⟩ : ∃ m, model = some m ∧ m.sigmas.flatten.size ≠ v.size := by
    simpa [OnePerRow] using hn
  have hunit : ∀ s, m ≠ .unit s := by
    rintro s rfl
    have hrows : s.size = v.size := Option.some.inj (hm _ rfl)
    exact hne hrows
  -- What is whitened once has as many rows as there are deviations, which is not what the model counts.
  have hsize : w.size = m.sigmas.flatten.size := by
    rw [(whitenVec_eq hm hw).1, Noise.scaling_some _ hunit, ← Noise.size_scales_eq_flatten]
    exact Vec.size_ofFn _ _
  obtain ⟨t, ht, -⟩ := bind_eq_ok.mp hu
  have ht : m.whiten (.ofVec w) = .ok t := ht
  have hdim := Noise.dim_of_rows? (hm m rfl)
  unfold Noise.whiten at ht
  split at ht
  · exact hunit _ rfl
  · rw [hdim] at ht
    have hfirst : (Tensor.ofVec w).firstAxis = .ok w.size := rfl
    simp only [hfirst, ok_bind] at ht
    split at ht
    · rename_i heq
      exact hne (hsize.symm.trans heq)
    · cases ht

/-- What is whitened twice keeps its rows. -/
theorem size_of_whitenTwice {f : LinearFactor K} {v u : Vec K} (hv : v.size = f.rows)
    (h : whitenTwice f.model v = .ok u) : u.size = f.rows := by
  have hone : OnePerRow f.model f.rows := by
    rw [← hv]
    exact onePerRow_of_whitenTwice (hv.symm ▸ f.model_rows) h
  rw [whitenTwice_of_onePerRow hone hv] at h
  cases h
  exact size_vec_scaling hone _

end LinearFactor
end BundleAdjustment
