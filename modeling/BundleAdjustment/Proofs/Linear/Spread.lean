import BundleAdjustment.Proofs.Linear.Whitening

/-!
A factor's matrices over all columns.

Once each key has a first column, the matrices of a factor are one wide matrix: `spread` has each
of them in its own columns and zeros elsewhere. Whitening the factor multiplies it by `W`
(`spreadAt_whitenedTo`).
-/
namespace BundleAdjustment
open Matrix

namespace LinearFactor
variable {K : Type} [ExactScalar K]

/-- Entry `(k, c)` of terms side by side, each from the first column of its key on. -/
def spreadAt (start : Key → Nat) (terms : List (Key × Mat K)) (k c : Nat) : K :=
  (terms.map fun e => if start e.1 ≤ c ∧ c < start e.1 + e.2.cols then e.2.get k (c - start e.1) else 0).sum

/-- The matrix `A` of a factor among `n` columns. -/
def spread (f : LinearFactor K) (start : Key → Nat) (n : Nat) : Matrix (Fin f.rows) (Fin n) K :=
  fun k c => spreadAt start f.terms.entries k c

theorem spreadAt_cons (start : Key → Nat) (e : Key × Mat K) (terms : List (Key × Mat K)) (k c : Nat) :
    spreadAt start (e :: terms) k c =
      (if start e.1 ≤ c ∧ c < start e.1 + e.2.cols then e.2.get k (c - start e.1) else 0) +
        spreadAt start terms k c := by
  rw [spreadAt, List.map_cons, List.sum_cons]
  rfl

theorem spreadAt_mat {s : RowScaling K} (start : Key → Nat) (terms : List (Key × Mat K)) {k c : Nat}
    (hk : k < s.size) :
    spreadAt start (terms.map fun e => (e.1, s.mat e.2)) k c =
      spreadAt start terms (s.source k) c * s.scale k := by
  induction terms with
  | nil => simp [spreadAt]
  | cons e rest ih =>
    rw [List.map_cons, spreadAt_cons, spreadAt_cons, ih, add_mul]
    congr 1
    by_cases hc : start e.1 ≤ c ∧ c < start e.1 + e.2.cols
    · have hj : c - start e.1 < e.2.cols := by omega
      have hc' : start e.1 ≤ c ∧ c < start e.1 + (s.mat e.2).cols := hc
      rw [if_pos hc, if_pos hc']
      exact Mat.get_ofFn hk hj
    · have hc' : ¬ (start e.1 ≤ c ∧ c < start e.1 + (s.mat e.2).cols) := hc
      rw [if_neg hc, if_neg hc', zero_mul]

theorem spreadAt_whitenedTo {f g : LinearFactor K} (h : f.WhitenedTo g) (start : Key → Nat) {k c : Nat}
    (hk : k < f.scaling.size) :
    spreadAt start g.terms.entries k c =
      spreadAt start f.terms.entries (f.scaling.source k) c * f.scaling.scale k := by
  rw [h.terms, spreadAt_mat start f.terms.entries hk]

/-- Without keys there is nothing in any column. -/
theorem spread_of_isEmpty {f : LinearFactor K} (h : f.isEmpty = true) (start : Key → Nat) (n : Nat) :
    f.spread start n = 0 := by
  have hnil : f.terms.entries = [] := List.isEmpty_iff.mp h
  funext k c
  show spreadAt start f.terms.entries k c = 0
  rw [hnil]
  rfl

end LinearFactor
end BundleAdjustment
