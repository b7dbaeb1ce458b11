import BundleAdjustment.Linear.Factor
import BundleAdjustment.Proofs.Faults
import Mathlib.Data.Nat.Basic

/-!
Rows against their deviations.

The deviations of a model fill the rows that it counts, so there are none, or one for each row, or
several times as many. With one for each row, whitening keeps the shape of every array; with more or
fewer, an array of several rows cannot be whitened, and a single row becomes a row for each of them
(`whiten_rows`). So whether a factor without hard constraints can be whitened depends on the number
of its deviations alone (`exists_whiten`, `whiten_of_not_suits`). None of this needs a law of the
numbers.
-/
namespace BundleAdjustment

namespace Tensor
variable {α : Type}

/-- An array of one axis is a vector. -/
theorem eq_ofVec {t : Tensor α} {n : Nat} (h : t.shape = [n]) : ∃ v : Vec α, v.size = n ∧ t = ofVec v := by
  obtain ⟨shape, entries, hsize⟩ := t
  cases h
  have hn : entries.size = n := by simpa [volume] using hsize
  cases hn
  exact ⟨⟨entries⟩, rfl, rfl⟩

/-- An array of two axes is a matrix. -/
theorem eq_ofMat {t : Tensor α} {r c : Nat} (h : t.shape = [r, c]) :
    ∃ A : Mat α, A.rows = r ∧ A.cols = c ∧ t = ofMat A := by
  obtain ⟨shape, entries, hsize⟩ := t
  cases h
  exact ⟨⟨r, c, entries, by simpa [volume] using hsize⟩, rfl, rfl, rfl⟩

/-- Deviations that are neither one for each row nor all for one row cannot be applied. -/
theorem sizes_of_align {n N q : Nat} {t : List Nat} (hq : N = n * q)
    (h : alignReversed [n] [N] = some t) : n = 1 ∨ n = N := by
  by_cases hn : n = 1
  · exact .inl hn
  · refine .inr ?_
    have hN : N ≠ 1 := by
      intro h1
      exact hn (Nat.dvd_one.mp ⟨q, h1.symm.trans hq⟩)
    by_contra hne
    simp [alignReversed, hn, hN, hne] at h

/-- Axes of length one leave the axes that they go with as they are. -/
theorem alignReversed_ones (s : List Nat) (n N : Nat) :
    alignReversed (s ++ [n]) (List.replicate s.length 1 ++ [N]) =
      (alignReversed [n] [N]).map fun t => s ++ t := by
  induction s with
  | nil => simp
  | cons m rest ih =>
    rw [List.length_cons, List.replicate_succ, List.cons_append, List.cons_append, alignReversed, ih]
    cases alignReversed [n] [N] <;> simp

theorem align_ones (s : List Nat) (n N : Nat) :
    align (n :: s) (N :: List.replicate s.length 1) =
      (alignReversed [n] [N]).map fun t => t.reverse ++ s := by
  have hones := alignReversed_ones s.reverse n N
  rw [List.length_reverse] at hones
  rw [align, List.reverse_cons, List.reverse_cons, List.reverse_replicate, hones, Option.map_map]
  cases alignReversed [n] [N] <;> simp

variable [Scalar α]

theorem map_ofVec (f : α → α) (v : Vec α) : (ofVec v).map f = .ofVec (v.map f) := by
  have hentries : (v.map f).entries = v.entries.map f := by
    refine Array.ext ((v.size_map f).trans (Array.size_map ..).symm) fun i hi hi' => ?_
    have hv : i < v.entries.size := by simpa using hi'
    simp [Vec.map, Vec.ofFn, Vec.get, hv]
  simp only [map, ofVec, Vec.size_map, hentries]

/-- Whatever is made of two vectors, entry by entry, is a vector. -/
theorem vector_of_zipWith {g : α → α → α} {u v : Vec α} {t : Tensor α}
    (h : zipWith g (.ofVec u) (.ofVec v) = .ok t) : ∃ w, t = .ofVec w := by
  have hshape : ∀ s, align [u.size] [v.size] = some s → ∃ n, s = [n] := by
    intro s hs
    by_cases heq : u.size = v.size ∨ v.size = 1
    · exact ⟨u.size, by simpa [align, alignReversed, heq] using hs.symm⟩
    · have hne : ¬ (1 = v.size ∨ v.size = 1) := by omega
      by_cases h1 : u.size = 1
      · exact ⟨v.size, by simpa [align, alignReversed, h1, hne] using hs.symm⟩
      · simp [align, alignReversed, heq, h1] at hs
  unfold zipWith at h
  split at h
  · rename_i s hs
    cases h
    obtain ⟨n, rfl⟩ := hshape s hs
    exact ⟨_, ofFn_singleton _ _⟩
  · cases h

/-- Times a column of as many numbers as there are rows, or a single row times any column: there is
then a row for each number. -/
theorem mul_ofColumn {t : Tensor α} {v : Vec α} {n : Nat} {s : List Nat} (ht : t.shape = n :: s)
    (hv : n = 1 ∨ v.size = n) :
    ∃ t', t.mul (.ofColumn v s.length) = .ok t' ∧ t'.shape = v.size :: s := by
  have hn : alignReversed [n] [v.size] = some [v.size] := by
    by_cases heq : v.size = n
    · simp [alignReversed, heq]
    · have h1 : n = 1 := hv.resolve_right heq
      subst h1
      simp [alignReversed, heq, Ne.symm heq]
  have ha : align t.shape (ofColumn v s.length).shape = some (v.size :: s) := by
    rw [ht]
    show align (n :: s) (v.size :: List.replicate s.length 1) = _
    rw [align_ones, hn]
    rfl
  rw [mul, zipWith, ha]
  exact ⟨_, rfl, rfl⟩

/-- A column of other numbers does not go with several rows. -/
theorem mul_ofColumn_error {t : Tensor α} {v : Vec α} {n q : Nat} {s : List Nat} (ht : t.shape = n :: s)
    (hq : v.size = n * q) (h1 : n ≠ 1) (hv : v.size ≠ n) :
    t.mul (.ofColumn v s.length) = .error .shapeMismatch := by
  have ha : align t.shape (ofColumn v s.length).shape = none := by
    rw [ht]
    show align (n :: s) (v.size :: List.replicate s.length 1) = _
    rw [align_ones]
    cases hr : alignReversed [n] [v.size] with
    | none => rfl
    | some r =>
      rcases sizes_of_align hq hr with h | h
      · exact absurd h h1
      · exact absurd h.symm hv
  rw [mul, zipWith, ha]

end Tensor

namespace Noise
variable {α : Type} [Scalar α]

theorem size_scales_eq_flatten (m : Noise α) : m.scales.size = m.sigmas.flatten.size :=
  Vec.size_map _ _

/-- The deviations fill the rows that they are counted by. -/
theorem size_scales_of_rows? {m : Noise α} {n : Nat} (h : m.rows? = some n) :
    ∃ q, m.scales.size = n * q := by
  obtain ⟨s, hs⟩ : ∃ s, m.sigmas.shape = n :: s := by
    unfold rows? at h
    cases hs : m.sigmas.shape with
    | nil => simp [hs] at h
    | cons a s => exact ⟨s, by simpa [hs] using h⟩
  refine ⟨volume s, ?_⟩
  rw [size_scales_eq_flatten]
  have hv := m.sigmas.size_eq
  rw [hs] at hv
  exact hv

/-- Whitening leaves a row for each deviation: of as many rows, or of a single one. Several rows are
not whitened at all by more or fewer deviations. -/
theorem whiten_rows {m : Noise α} {t : Tensor α} {n : Nat} {s : List Nat} (ht : t.shape = n :: s)
    (hm : m.rows? = some n) :
    (n = 1 ∨ m.sigmas.flatten.size = n) ∧
        (∃ t', m.whiten t = .ok t' ∧ t'.shape = m.sigmas.flatten.size :: s) ∨
      ¬ (n = 1 ∨ m.sigmas.flatten.size = n) ∧ m.whiten t = .error .shapeMismatch := by
  by_cases hu : ∃ u, m = unit u
  · obtain ⟨u, rfl⟩ := hu
    have hn : u.size = n := by simpa [rows?, sigmas] using hm
    refine .inl ⟨.inr hn, t, rfl, ?_⟩
    rw [ht, ← hn]
    rfl
  · have hrank : t.rank - 1 = s.length := by simp [Tensor.rank, ht]
    obtain ⟨q, hq⟩ := size_scales_of_rows? hm
    rw [whiten_of_rows ht hm fun u hu' => hu ⟨u, hu'⟩, hrank, ← size_scales_eq_flatten]
    by_cases hn : n = 1 ∨ m.scales.size = n
    · exact .inl ⟨hn, Tensor.mul_ofColumn ht hn⟩
    · obtain ⟨h1, hne⟩ := not_or.mp hn
      exact .inr ⟨hn, Tensor.mul_ofColumn_error ht hq h1 hne⟩

/-- Hard constraints have to be whitened. -/
theorem isUnit_of_isConstrained {m : Noise α} (h : m.isConstrained = true) : m.isUnit = false := by
  cases m with
  | constrained s w => rfl
  | _ => cases h

/-- Deviations that lose their weighting are as many as before. -/
theorem size_sigmas_unweighted (m : Noise α) :
    m.unweighted.sigmas.flatten.size = m.sigmas.flatten.size := by
  cases m with
  | constrained s w =>
    show (s.map _).entries.size = s.entries.size
    rw [Tensor.map, Array.size_map]
  | _ => simp [unweighted, ofRows, sigmas]

end Noise

namespace LinearFactor

/-- A model, if there is one, has as many deviations as there are rows. Only the deviations of a
constrained model can be more or fewer. -/
def OnePerRow {K : Type} (model : Option (Noise K)) (rows : Nat) : Prop :=
  ∀ m, model = some m → m.sigmas.flatten.size = rows

/-- A model suits that many rows: there is only one, or there is one deviation for each. -/
def Suits {K : Type} (model : Option (Noise K)) (rows : Nat) : Prop := rows = 1 ∨ OnePerRow model rows

/-- How many rows are left of that many when a model is applied to them. -/
def whitenedRows {K : Type} (model : Option (Noise K)) (rows : Nat) : Nat :=
  model.elim rows fun m => m.sigmas.flatten.size

theorem OnePerRow.whitenedRows_eq {K : Type} {model : Option (Noise K)} {rows : Nat}
    (h : OnePerRow model rows) : whitenedRows model rows = rows := by
  cases model with
  | none => rfl
  | some m => exact h m rfl

variable {α : Type} [Scalar α] {model : Option (Noise α)} {n : Nat}

/-- A vector is whitened to a vector. -/
theorem vector_of_whitenTensor {v : Vec α} {t : Tensor α}
    (h : whitenTensor model (.ofVec v) = .ok t) : ∃ u, t = .ofVec u := by
  cases model with
  | none =>
    cases h
    exact ⟨v, rfl⟩
  | some m =>
    have h : m.whiten (.ofVec v) = .ok t := h
    unfold Noise.whiten at h
    split at h
    · cases h
      exact ⟨v, rfl⟩
    · obtain ⟨rows, -, h⟩ := bind_eq_ok.mp h
      obtain ⟨dim, -, h⟩ := bind_eq_ok.mp h
      split at h
      · exact Tensor.vector_of_zipWith h
      · cases h

theorem whitenTensor_eq_whitenVec (model : Option (Noise α)) (v : Vec α) :
    whitenTensor model (.ofVec v) = Tensor.ofVec <$> whitenVec model v := by
  unfold whitenVec
  cases h : whitenTensor model (.ofVec v) with
  | error e => rfl
  | ok t =>
    obtain ⟨u, rfl⟩ := vector_of_whitenTensor h
    rfl

/-- An array that is a vector may be whitened twice as one. -/
theorem whitenTensor_twice (model : Option (Noise α)) (v : Vec α) :
    (whitenTensor model (.ofVec v) >>= whitenTensor model) = Tensor.ofVec <$> whitenTwice model v := by
  rw [whitenTwice, whitenTensor_eq_whitenVec]
  cases whitenVec model v with
  | error e => rfl
  | ok u => exact whitenTensor_eq_whitenVec model u

theorem whitenTensor_of_suits {t : Tensor α} {s : List Nat} (ht : t.shape = n :: s) (hm : ModelRows model n)
    (h : Suits model n) : ∃ t', whitenTensor model t = .ok t' ∧ t'.shape = whitenedRows model n :: s := by
  cases model with
  | none => exact ⟨t, rfl, ht⟩
  | some m =>
    rcases Noise.whiten_rows ht (hm m rfl) with ⟨-, hw⟩ | ⟨hne, -⟩
    · exact hw
    · exact absurd (h.imp_right fun hone => hone m rfl) hne

theorem whitenMat_of_suits {A : Mat α} (hA : A.rows = n) (hm : ModelRows model n) (h : Suits model n) :
    ∃ B, whitenMat model A = .ok B ∧ B.rows = whitenedRows model n ∧ B.cols = A.cols := by
  obtain ⟨t, hw, ht⟩ := whitenTensor_of_suits (t := .ofMat A) (s := [A.cols])
    (by rw [Tensor.shape_ofMat, hA]) hm h
  obtain ⟨B, hr, hc, rfl⟩ := Tensor.eq_ofMat ht
  refine ⟨B, ?_, hr, hc⟩
  rw [whitenMat, hw]
  rfl

theorem whitenVec_of_suits {v : Vec α} (hv : v.size = n) (hm : ModelRows model n) (h : Suits model n) :
    ∃ u, whitenVec model v = .ok u ∧ u.size = whitenedRows model n := by
  obtain ⟨t, hw, ht⟩ := whitenTensor_of_suits (t := .ofVec v) (s := [])
    (by rw [Tensor.shape_ofVec, hv]) hm h
  obtain ⟨u, hu, rfl⟩ := Tensor.eq_ofVec ht
  refine ⟨u, ?_, hu⟩
  rw [whitenVec, hw]
  rfl

/-- Several rows and other deviations: no matrix can be whitened. -/
theorem whitenMat_of_not_onePerRow {A : Mat α} (hA : A.rows = n) (hm : ModelRows model n) (h1 : n ≠ 1)
    (h : ¬ OnePerRow model n) : whitenMat model A = .error .shapeMismatch := by
  obtain ⟨m, rfl, hne⟩ : ∃ m, model = some m ∧ m.sigmas.flatten.size ≠ n := by
    simpa [OnePerRow] using h
  rcases Noise.whiten_rows (t := .ofMat A) (s := [A.cols]) (by rw [Tensor.shape_ofMat, hA]) (hm m rfl)
    with ⟨heq, -⟩ | ⟨-, hw⟩
  · exact absurd heq (not_or.mpr ⟨h1, hne⟩)
  · rw [whitenMat, whitenTensor, hw]
    rfl

theorem whitenVec_of_not_onePerRow {v : Vec α} (hv : v.size = n) (hm : ModelRows model n) (h1 : n ≠ 1)
    (h : ¬ OnePerRow model n) : whitenVec model v = .error .shapeMismatch := by
  obtain ⟨m, rfl, hne⟩ : ∃ m, model = some m ∧ m.sigmas.flatten.size ≠ n := by
    simpa [OnePerRow] using h
  rcases Noise.whiten_rows (t := .ofVec v) (s := []) (by rw [Tensor.shape_ofVec, hv]) (hm m rfl)
    with ⟨heq, -⟩ | ⟨-, hw⟩
  · exact absurd heq (not_or.mpr ⟨h1, hne⟩)
  · rw [whitenVec, whitenTensor, hw]
    rfl

/-- A function that whitens every matrix of that many rows. -/
theorem exists_whitenMat (hm : ModelRows model n) (h : Suits model n) :
    ∃ W : Mat α → Mat α, ∀ A, A.rows = n →
      whitenMat model A = .ok (W A) ∧ (W A).rows = whitenedRows model n ∧ (W A).cols = A.cols := by
  refine ⟨fun A => (whitenMat model A).toOption.getD A, fun A hA => ?_⟩
  obtain ⟨B, hB, hr, hc⟩ := whitenMat_of_suits hA hm h
  dsimp only
  rw [hB]
  exact ⟨rfl, hr, hc⟩

/-- The system of a factor that its model suits is whitened, and keeps its keys and widths. -/
theorem exists_whitenedSystem {f : LinearFactor α} (h : Suits f.model f.rows) :
    ∃ t b, f.whitenedSystem = .ok (t, b) ∧ t.keys = f.keys ∧ termWidths t = f.widths ∧
      (∀ e ∈ t.entries, e.2.rows = whitenedRows f.model f.rows) ∧ b.size = whitenedRows f.model f.rows := by
  obtain ⟨W, hW⟩ := exists_whitenMat f.model_rows h
  obtain ⟨b, hb, hsize⟩ := whitenVec_of_suits rfl f.model_rows h
  have hterms : f.terms.mapValuesM (fun _ A => whitenMat f.model A) = .ok (f.terms.mapValues fun _ A => W A) :=
    Table.mapValuesM_of_forall fun e he => (hW e.2 (f.rows_eq e he)).1
  refine ⟨f.terms.mapValues fun _ A => W A, b, ?_, Table.keys_mapValues _ _, ?_, fun e he => ?_, hsize⟩
  · rw [whitenedSystem, hterms, hb]
    rfl
  · rw [termWidths, Table.mapValues, List.map_map, widths, termWidths]
    exact List.map_congr_left fun e he => (hW e.2 (f.rows_eq e he)).2.2
  · obtain ⟨e', he', rfl⟩ := List.mem_map.mp he
    exact (hW e'.2 (f.rows_eq e' he')).2.1

omit [Scalar α] in
/-- A factor of one row may have as many as its row is repeated: a pair has two. -/
theorem fits_whitenedRows {f : LinearFactor α} (h : Suits f.model f.rows) :
    f.kind.Fits f.widths (whitenedRows f.model f.rows) := by
  rcases h with h1 | hone
  · have hfits := f.fits
    cases hk : f.kind with
    | general => trivial
    | uniform d =>
      rw [hk] at hfits
      exact hfits
    | pair =>
      rw [hk] at hfits
      have h2 : f.rows = 2 := hfits.2
      omega
  · rw [hone.whitenedRows_eq]
    exact f.fits

theorem remainingModel_eq_none (h : model.elim false Noise.isConstrained = false) :
    remainingModel model = none := by
  cases model with
  | none => rfl
  | some m =>
    have h : m.isConstrained = false := h
    rw [remainingModel, h]
    rfl

/-- What remains of a model is nothing, or the hard constraints without their weighting. -/
theorem remainingModel_cases (model : Option (Noise α)) :
    model.elim false Noise.isConstrained = false ∧ remainingModel model = none ∨
      ∃ m, model = some m ∧ m.isConstrained = true ∧ remainingModel model = some m.unweighted := by
  cases hc : model.elim false Noise.isConstrained with
  | false => exact .inl ⟨rfl, remainingModel_eq_none hc⟩
  | true =>
    cases model with
    | none => cases hc
    | some m =>
      have hc : m.isConstrained = true := hc
      exact .inr ⟨m, rfl, hc, by rw [remainingModel, if_pos hc]⟩

theorem onePerRow_unweighted {m : Noise α} (hone : OnePerRow (some m) n) :
    OnePerRow (some m.unweighted) n := by
  intro m' hm'
  cases hm'
  exact m.size_sigmas_unweighted.trans (hone m rfl)

theorem onePerRow_remainingModel (h : OnePerRow model n) : OnePerRow (remainingModel model) n := by
  obtain ⟨-, hnone⟩ | ⟨m, rfl, -, hsome⟩ := remainingModel_cases model
  · rw [hnone]
    intro m hm
    cases hm
  · rw [hsome]
    exact onePerRow_unweighted h

/-- A model that is known to change nothing has one deviation for each row. -/
theorem onePerRow_of_not_needsWhitening (hm : ModelRows model n) (h : Noise.needsWhitening model = false) :
    OnePerRow model n := by
  intro m hmodel
  have hr := hm m hmodel
  subst hmodel
  cases m with
  | constrained s w => cases h
  | _ => simpa [Noise.rows?, Noise.sigmas] using hr

/-- Several rows are whitened only with one deviation each. -/
theorem onePerRow_of_whitenedSystem {f : LinearFactor α} (h1 : f.rows ≠ 1) {s : Table Key (Mat α) × Vec α}
    (h : f.whitenedSystem = .ok s) : OnePerRow f.model f.rows := by
  by_contra hn
  obtain ⟨t, -, hs⟩ := bind_eq_ok.mp h
  obtain ⟨b, hb, -⟩ := bind_eq_ok.mp hs
  rw [whitenVec_of_not_onePerRow rfl f.model_rows h1 hn] at hb
  cases hb

/-- A factor can be whitened if its model suits it and what remains of the model counts the rows that are
left. It keeps its widths. -/
theorem exists_whiten_of_modelRows {f : LinearFactor α} (h : Suits f.model f.rows)
    (hm : ModelRows (remainingModel f.model) (whitenedRows f.model f.rows)) :
    ∃ g, f.whiten = .ok g ∧ g.keys = f.keys ∧ g.widths = f.widths := by
  obtain ⟨t, b, hsystem, hkeys, hwidths, hrows, hsize⟩ := exists_whitenedSystem h
  have hrows' : ∀ e ∈ t.entries, e.2.rows = b.size := fun e he => (hrows e he).trans hsize.symm
  have hmodel : ModelRows (remainingModel f.model) b.size := hsize.symm ▸ hm
  have hfits : f.kind.Fits (termWidths t) b.size := by
    rw [hwidths, hsize]
    exact fits_whitenedRows h
  refine ⟨⟨f.kind, t, b, remainingModel f.model, hrows', hmodel, hfits⟩, ?_, hkeys, hwidths⟩
  rw [whiten, hsystem]
  show withTerms f t b _ = _
  rw [withTerms, dif_pos hrows', ofTerms, dif_pos hmodel, ok_bind, dif_pos hfits]
  rfl

/-- A factor without hard constraints can be whitened if its model suits it. -/
theorem exists_whiten {f : LinearFactor α} (h : Suits f.model f.rows)
    (hc : f.model.elim false Noise.isConstrained = false) :
    ∃ g, f.whiten = .ok g ∧ g.keys = f.keys ∧ g.widths = f.widths := by
  refine exists_whiten_of_modelRows h ?_
  rw [remainingModel_eq_none hc]
  intro m hm
  cases hm

/-- With one deviation for each row any factor can be whitened. -/
theorem exists_whiten_of_onePerRow {f : LinearFactor α} (h : OnePerRow f.model f.rows) :
    ∃ g, f.whiten = .ok g ∧ g.keys = f.keys ∧ g.widths = f.widths := by
  refine exists_whiten_of_modelRows (.inr h) ?_
  rw [h.whitenedRows_eq]
  exact modelRows_remainingModel f.model_rows

/-- Otherwise the model is refused. -/
theorem whiten_of_not_suits {f : LinearFactor α} (h : ¬ Suits f.model f.rows) :
    f.whiten = .error .shapeMismatch := by
  obtain ⟨h1, hno⟩ := not_or.mp h
  have hterms : ∀ e ∈ f.terms.entries, whitenMat f.model e.2 = .error .shapeMismatch := fun e he =>
    whitenMat_of_not_onePerRow (f.rows_eq e he) f.model_rows h1 hno
  have hrhs : whitenVec f.model f.rhs = .error .shapeMismatch :=
    whitenVec_of_not_onePerRow rfl f.model_rows h1 hno
  have hsystem : f.whitenedSystem = .error .shapeMismatch := by
    rw [whitenedSystem]
    cases ht : f.terms.mapValuesM fun _ A => whitenMat f.model A with
    | error e =>
      obtain ⟨u, hu, he⟩ := Table.mapValuesM_eq_error ht
      cases (hterms u hu).symm.trans he
      rfl
    | ok t =>
      rw [ok_bind, hrhs]
      rfl
  rw [whiten, hsystem]
  rfl

end LinearFactor
end BundleAdjustment
