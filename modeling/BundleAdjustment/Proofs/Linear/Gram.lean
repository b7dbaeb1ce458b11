import BundleAdjustment.Proofs.Linear.Entries
import BundleAdjustment.Proofs.Linear.CrossWrites

/-!
What the writes of a factor add up to.

Placed matrices are the columns of one wide matrix: `columnOf l i r` is its column at row `r` of
slot `i`. The products of each of them with itself and with those after it, each read on both
sides of the diagonal, are the inner products of all columns (`sum_crossWrites`), whatever the
order of the slots.
-/
namespace BundleAdjustment.LinearFactor
open BlockMatrix
variable {K : Type}

/-- Row `r` of slot `i` lies within every matrix of that slot. -/
def Inside (l : List (Int × Mat K)) (i r : Nat) : Prop := ∀ t ∈ l, t.1 = i → r < t.2.cols

theorem Inside.head {t : Int × Mat K} {l : List (Int × Mat K)} {i r : Nat} (h : Inside (t :: l) i r) :
    t.1 = i → r < t.2.cols :=
  h t (List.mem_cons_self ..)

theorem Inside.tail {t : Int × Mat K} {l : List (Int × Mat K)} {i r : Nat} (h : Inside (t :: l) i r) :
    Inside l i r :=
  fun u hu => h u (List.mem_cons_of_mem t hu)

variable [ExactScalar K]

/-- The column of one placed matrix at row `r` of slot `i`. -/
def pick (t : Int × Mat K) (i r k : Nat) : K := if t.1 = i then t.2.get k r else 0

def columnOf (l : List (Int × Mat K)) (i r k : Nat) : K := (l.map fun t => pick t i r k).sum

theorem columnOf_cons (t : Int × Mat K) (l : List (Int × Mat K)) (i r k : Nat) :
    columnOf (t :: l) i r k = pick t i r k + columnOf l i r k := by
  rw [columnOf, List.map_cons, List.sum_cons]
  rfl

theorem columnOf_perm {l l' : List (Int × Mat K)} (h : l.Perm l') (i r k : Nat) :
    columnOf l i r k = columnOf l' i r k :=
  (h.map _).sum_eq

theorem get_gram_range {A B : Mat K} {r c : Nat} (hr : r < A.cols) (hc : c < B.cols) :
    (A.gram B).get r c = ∑ k ∈ Finset.range A.rows, A.get k r * B.get k c := by
  rw [Mat.get_gram hr hc, Scalar.sum_eq_range]

/-- The product of a matrix with itself is read once. -/
theorem entry_self {t : Int × Mat K} {i r j c : Nat} (hi : t.1 = i → r < t.2.cols)
    (hj : t.1 = j → c < t.2.cols) :
    (⟨t.1, t.1, t.2.gram t.2⟩ : Write K).entry i r j c =
      ∑ k ∈ Finset.range t.2.rows, pick t i r k * pick t j c k := by
  unfold Write.entry pick
  by_cases h1 : t.1 = i
  · by_cases h2 : t.1 = j
    · rw [if_pos ⟨h1, h2⟩, get_gram_range (hi h1) (hj h2)]
      simp only [if_pos h1, if_pos h2]
    · rw [if_neg fun h => h2 h.2, if_neg fun h => h2 h.1]
      simp only [if_neg h2, mul_zero, Finset.sum_const_zero]
  · rw [if_neg fun h => h1 h.1, if_neg fun h => h1 h.2]
    simp only [if_neg h1, zero_mul, Finset.sum_const_zero]

/-- The product of two matrices in different slots is read on both sides of the diagonal. -/
theorem entry_cross {t u : Int × Mat K} {i r j c : Nat} (hne : t.1 ≠ u.1)
    (hti : t.1 = i → r < t.2.cols) (htj : t.1 = j → c < t.2.cols) (hui : u.1 = i → r < u.2.cols)
    (huj : u.1 = j → c < u.2.cols) :
    (⟨t.1, u.1, t.2.gram u.2⟩ : Write K).entry i r j c =
      ∑ k ∈ Finset.range t.2.rows, (pick t i r k * pick u j c k + pick u i r k * pick t j c k) := by
  unfold Write.entry pick
  by_cases h1 : t.1 = i ∧ u.1 = j
  · have h3 : ¬ u.1 = i := fun h => hne (h1.1.trans h.symm)
    rw [if_pos h1, get_gram_range (hti h1.1) (huj h1.2)]
    simp only [if_pos h1.1, if_pos h1.2, if_neg h3, zero_mul, add_zero]
  · rw [if_neg h1]
    have hfirst : ∀ k, (if t.1 = i then t.2.get k r else 0) * (if u.1 = j then u.2.get k c else 0) = 0 := by
      intro k
      by_cases hi : t.1 = i
      · rw [if_neg fun hj => h1 ⟨hi, hj⟩, mul_zero]
      · rw [if_neg hi, zero_mul]
    by_cases h2 : t.1 = j ∧ u.1 = i
    · rw [if_pos h2, get_gram_range (htj h2.1) (hui h2.2)]
      refine Finset.sum_congr rfl fun k _ => ?_
      rw [hfirst, zero_add, if_pos h2.1, if_pos h2.2, mul_comm]
    · rw [if_neg h2]
      refine (Finset.sum_eq_zero fun k _ => ?_).symm
      rw [hfirst, zero_add]
      by_cases hi : u.1 = i
      · rw [if_neg fun hj => h2 ⟨hj, hi⟩, mul_zero]
      · rw [if_neg hi, zero_mul]

/-- The products of one matrix with others in other slots. -/
theorem sum_entry_cross {t : Int × Mat K} {l : List (Int × Mat K)} {i r j c : Nat}
    (hne : ∀ u ∈ l, t.1 ≠ u.1)
    (hti : t.1 = i → r < t.2.cols) (htj : t.1 = j → c < t.2.cols) (hi : Inside l i r) (hj : Inside l j c) :
    (l.map fun u => (⟨t.1, u.1, t.2.gram u.2⟩ : Write K).entry i r j c).sum =
      ∑ k ∈ Finset.range t.2.rows,
        (pick t i r k * columnOf l j c k + columnOf l i r k * pick t j c k) := by
  induction l with
  | nil => simp [columnOf]
  | cons u rest ih =>
    have hu := entry_cross (hne u (List.mem_cons_self ..)) hti htj hi.head hj.head
    have hrest := ih (fun v hv => hne v (List.mem_cons_of_mem u hv)) hi.tail hj.tail
    rw [List.map_cons, List.sum_cons, hu, hrest, ← Finset.sum_add_distrib]
    refine Finset.sum_congr rfl fun k _ => ?_
    rw [columnOf_cons, columnOf_cons]
    ring

/-- **The writes add up to the Gram matrix of the columns**, in any order of the slots. -/
theorem sum_crossWrites {m : Nat} {l : List (Int × Mat K)} {i r j c : Nat}
    (hd : (l.map Prod.fst).Nodup) (hrows : ∀ t ∈ l, t.2.rows = m) (hi : Inside l i r) (hj : Inside l j c) :
    ((crossWrites l).map fun w => w.entry i r j c).sum =
      ∑ k ∈ Finset.range m, columnOf l i r k * columnOf l j c k := by
  induction l with
  | nil => simp [crossWrites, columnOf]
  | cons t rest ih =>
    obtain ⟨hnot, hrest⟩ := List.nodup_cons.mp hd
    have ht := hrows t (List.mem_cons_self ..)
    have hr : ∀ u ∈ rest, u.2.rows = m := fun u hu => hrows u (List.mem_cons_of_mem t hu)
    have hne : ∀ u ∈ rest, t.1 ≠ u.1 := fun u hu he => hnot (he ▸ List.mem_map_of_mem hu)
    have hself := entry_self hi.head hj.head
    have hcross := sum_entry_cross hne hi.head hj.head hi.tail hj.tail
    rw [crossWrites, List.map_append, List.sum_append, ih hrest hr hi.tail hj.tail, List.map_map,
      List.map_cons, List.sum_cons]
    simp only [Function.comp_def]
    rw [hself, hcross, ht, ← Finset.sum_add_distrib, ← Finset.sum_add_distrib]
    refine Finset.sum_congr rfl fun k _ => ?_
    rw [columnOf_cons, columnOf_cons]
    ring

end BundleAdjustment.LinearFactor
