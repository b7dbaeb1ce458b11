import BundleAdjustment.Linear.Factor.Assembly
import Mathlib.Data.List.Perm.Basic
import Mathlib.Data.List.Sort

/-!
The writes of a factor as the blocks of one Gram matrix.

With the right-hand side as one more matrix in the last slot, a factor's writes are the products
of each placed matrix with itself and with those after it (`gramWrites_eq`). The six writes of a
factor of two terms are the same list (`pairWrites_eq`), so there is one kind of update to
reason about.
-/
namespace BundleAdjustment.LinearFactor
variable {α : Type} [Scalar α]

/-- Each placed matrix with itself and with those after it. -/
def crossWrites : List (Int × Mat α) → List (BlockMatrix.Write α)
  | [] => []
  | t :: rest => (t :: rest).map (fun u => ⟨t.1, u.1, t.2.gram u.2⟩) ++ crossWrites rest

/-- Placed matrices in ascending order of their slots, the right-hand side last. -/
def inOrder (b : Vec α) (last : Int) (placed : List (Int × Mat α)) : List (Int × Mat α) :=
  (placed.mergeSort fun s t => s.1 ≤ t.1) ++ [(last, Mat.ofColumn b)]

theorem gradientColumn_eq {A : Mat α} {b : Vec α} (h : A.rows = b.size) :
    gradientColumn A b = A.gram (Mat.ofColumn b) := by
  have hs : (gradientColumn A b).rows = A.cols := Mat.size_transposeMulVec A b
  refine Mat.ext_get hs rfl fun i j hi hj => ?_
  have hi' : i < A.cols := hs ▸ hi
  have hj' : j < 1 := hj
  have hg : (gradientColumn A b).get i j = (A.transposeMulVec b).get i := Mat.get_ofFn hi hj
  rw [hg, Mat.get_transposeMulVec hi', Mat.get_gram hi' hj']
  refine Scalar.sum_congr fun k hk => ?_
  rw [Mat.ofColumn, Mat.get_ofFn (h ▸ hk) hj']

theorem corner_eq (b : Vec α) : corner b = (Mat.ofColumn b).gram (Mat.ofColumn b) := by
  refine Mat.ofFn_congr fun i j hi hj => ?_
  refine Scalar.sum_congr fun k hk => ?_
  rw [Mat.ofColumn, Mat.get_ofFn hk hi, Mat.get_ofFn hk hj]

theorem placedWrites_append (b : Vec α) (last : Int) (l : List (Int × Mat α))
    (h : ∀ t ∈ l, t.2.rows = b.size) :
    placedWrites b last l ++ [⟨last, last, corner b⟩] = crossWrites (l ++ [(last, Mat.ofColumn b)]) := by
  induction l with
  | nil => simp [placedWrites, crossWrites, corner_eq]
  | cons t rest ih =>
    have hb := gradientColumn_eq (h t (List.mem_cons_self ..))
    have ih' := ih fun u hu => h u (List.mem_cons_of_mem t hu)
    simp only [placedWrites, List.cons_append, crossWrites, List.append_assoc, ih', hb, List.map_cons,
      List.map_append, List.map_nil]
    rfl

theorem gramWrites_eq {b : Vec α} {last : Int} {placed : List (Int × Mat α)}
    (h : ∀ t ∈ placed, t.2.rows = b.size) :
    gramWrites b last placed = crossWrites (inOrder b last placed) :=
  placedWrites_append b last _ fun t ht => h t (List.mem_mergeSort.mp ht)

/-- Two terms are written as any number of terms is. -/
theorem pairWrites_eq (b : Vec α) (last : Int) (first second : Int × Mat α) :
    pairWrites b last first second = gramWrites b last [first, second] := by
  have hs : ([first, second].mergeSort fun s t => s.1 ≤ t.1) =
      if second.1 < first.1 then [second, first] else [first, second] := by
    by_cases hlt : second.1 < first.1
    · have hle : ¬ first.1 ≤ second.1 := by omega
      simp [List.mergeSort, List.MergeSort.Internal.splitInTwo, hlt, hle]
    · have hle : first.1 ≤ second.1 := by omega
      simp [List.mergeSort, List.MergeSort.Internal.splitInTwo, hlt, hle]
  unfold gramWrites pairWrites
  rw [hs]
  by_cases hlt : second.1 < first.1
  · simp only [if_pos hlt]
    rfl
  · simp only [if_neg hlt]
    rfl

/-- The slots ascend strictly if no two placed matrices share one and all are below the last. -/
theorem pairwise_inOrder {b : Vec α} {last : Int} {placed : List (Int × Mat α)}
    (hd : (placed.map Prod.fst).Nodup) (hl : ∀ t ∈ placed, t.1 < last) :
    (inOrder b last placed).Pairwise fun t u => t.1 < u.1 := by
  have hsort : (placed.mergeSort fun s t => decide (s.1 ≤ t.1)).Pairwise
      fun t u => decide (t.1 ≤ u.1) = true :=
    List.pairwise_mergeSort (fun a b c hab hbc => by simp at *; omega) (fun a b => by simp; omega) placed
  have hperm := List.mergeSort_perm placed fun s t : Int × Mat α => decide (s.1 ≤ t.1)
  have hne : (placed.mergeSort fun s t => decide (s.1 ≤ t.1)).Pairwise fun t u => t.1 ≠ u.1 :=
    List.pairwise_map.mp ((hperm.map Prod.fst).nodup_iff.mpr hd)
  refine List.pairwise_append.mpr ⟨?_, List.pairwise_singleton _ _, ?_⟩
  · refine hsort.imp₂ ?_ hne
    intro t u hle hne
    have hle' : t.1 ≤ u.1 := by simpa using hle
    omega
  · intro t ht u hu
    rw [List.mem_singleton.mp hu]
    exact hl t (List.mem_mergeSort.mp ht)

theorem perm_inOrder (b : Vec α) (last : Int) (placed : List (Int × Mat α)) :
    (inOrder b last placed).Perm (placed ++ [(last, Mat.ofColumn b)]) :=
  (List.mergeSort_perm _ _).append_right _

end BundleAdjustment.LinearFactor
