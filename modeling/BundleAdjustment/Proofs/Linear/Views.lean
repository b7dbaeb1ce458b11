import BundleAdjustment.Proofs.Linear.Entries
import BundleAdjustment.Tensor.Broadcast

/-!
The views of a block matrix.

The whole matrix, its blocks and its last column are read in different ways: the whole matrix as slabs of
stored blocks and of their transposes, set into zeros where the widths before them end (`full_eq_tiled`), the
others from the stored blocks. Whatever was added and refused before, all of them show the same numbers
(`block_eq_slab`, `views_agree`). A block is what was added to it, in the order in which it was; where addition
does not mind the order, neither does the block (`sumFrom_perm`).
-/
namespace BundleAdjustment

/-- Numbers added one after the other, onto a number if there is one; the first of all is taken as it is. -/
def Scalar.sumFrom {α : Type} [Scalar α] : Option α → List α → α
  | some s, v :: rest => sumFrom (some (s + v)) rest
  | none, v :: rest => sumFrom (some v) rest
  | s, [] => s.getD 0

theorem Scalar.sumFrom_nil {α : Type} [Scalar α] (s : Option α) : sumFrom s [] = s.getD 0 := by
  cases s <;> rfl

/-- Where addition does not mind the order, nor does the sum. -/
theorem Scalar.sumFrom_perm {α : Type} [Scalar α] (hassoc : Std.Associative (α := α) (· + ·))
    (hcomm : Std.Commutative (α := α) (· + ·)) {l l' : List α} (h : l.Perm l') (s : Option α) :
    sumFrom s l = sumFrom s l' := by
  induction h generalizing s with
  | nil => rfl
  | cons v _ ih => cases s <;> exact ih _
  | swap u v rest =>
    cases s with
    | none => exact congrArg (fun s => sumFrom (some s) rest) (hcomm.comm v u)
    | some s =>
      have hswap : s + v + u = s + u + v := by
        rw [hassoc.assoc, hcomm.comm v u, hassoc.assoc]
      exact congrArg (fun s => sumFrom (some s) rest) hswap
  | trans _ _ ih ih' => exact (ih s).trans (ih' s)

/-- An array with a matrix is that matrix. -/
theorem Tensor.eq_ofMat_of_mat? {α : Type} {t : Tensor α} {A : Mat α} (h : t.mat? = some A) : t = ofMat A := by
  obtain ⟨shape, entries, hsize⟩ := t
  unfold mat? at h
  split at h
  · rename_i heq
    cases heq
    cases h
    rfl
  · cases h

/-! ### Slabs -/

theorem Mat.transpose_transpose {α : Type} [Zero α] (A : Mat α) : A.transpose.transpose = A :=
  Mat.ext_get rfl rfl fun _ _ hi hj => by rw [get_transpose (A := A.transpose) hi hj, get_transpose (A := A) hj hi]

/-- A matrix with another one in place of its entries from a row and a column on. -/
def Mat.overwrite {α : Type} [Zero α] (D A : Mat α) (row col : Nat) : Mat α :=
  Mat.ofFn D.rows D.cols fun r c =>
    if (row ≤ r ∧ r < row + A.rows) ∧ col ≤ c ∧ c < col + A.cols then A.get (r - row) (c - col) else D.get r c

namespace BlockMatrix
variable {α : Type} [Scalar α]

/-- Sets a stored block into a matrix and, off the diagonal, its transpose into the place across. -/
def setBlock (M : BlockMatrix α) (D : Mat α) (e : (Nat × Nat) × Mat α) : Mat α :=
  let D' := D.overwrite e.2 (M.offset e.1.1) (M.offset e.1.2)
  if e.1.1 = e.1.2 then D' else D'.overwrite e.2.transpose (M.offset e.1.2) (M.offset e.1.1)

/-- The stored blocks set into a matrix of zeros one after the other. -/
def tiled (M : BlockMatrix α) : Mat α := M.blocks.entries.foldl M.setBlock (Mat.zeros M.order M.order)

theorem shape_setBlock (M : BlockMatrix α) (D : Mat α) (e : (Nat × Nat) × Mat α) :
    (M.setBlock D e).rows = D.rows ∧ (M.setBlock D e).cols = D.cols := by
  unfold setBlock
  dsimp only
  split <;> exact ⟨rfl, rfl⟩

theorem shape_foldl_setBlock (M : BlockMatrix α) (l : List ((Nat × Nat) × Mat α)) (D : Mat α) :
    (l.foldl M.setBlock D).rows = D.rows ∧ (l.foldl M.setBlock D).cols = D.cols := by
  induction l generalizing D with
  | nil => exact ⟨rfl, rfl⟩
  | cons e rest ih =>
    have hshape := shape_setBlock M D e
    exact ⟨(ih _).1.trans hshape.1, (ih _).2.trans hshape.2⟩

section Tiles
variable {M : BlockMatrix α} {D : Mat α} {i j r c : Nat}
  (hi : i < M.count) (hj : j < M.count) (hr : r < M.width i) (hc : c < M.width j)
  (hrows : D.rows = M.order) (hcols : D.cols = M.order)
include hi hj hr hc hrows hcols

/-- A slab of one block is seen in the rows and columns of that block only. -/
theorem get_overwrite {A : Mat α} {p q : Nat} (hp : p < M.count) (hq : q < M.count)
    (hA : A.rows = M.width p ∧ A.cols = M.width q) :
    (D.overwrite A (M.offset p) (M.offset q)).get (M.offset i + r) (M.offset j + c) =
      if p = i ∧ q = j then A.get r c else D.get (M.offset i + r) (M.offset j + c) := by
  have hR : M.offset i + r < D.rows := hrows ▸ total_take_add_lt hi hr
  have hC : M.offset j + c < D.cols := hcols ▸ total_take_add_lt hj hc
  have hrow : (M.offset p ≤ M.offset i + r ∧ M.offset i + r < M.offset p + A.rows) ↔ p = i :=
    hA.1 ▸ mem_block_iff hp hi hr
  have hcol : (M.offset q ≤ M.offset j + c ∧ M.offset j + c < M.offset q + A.cols) ↔ q = j :=
    hA.2 ▸ mem_block_iff hq hj hc
  rw [Mat.overwrite, Mat.get_ofFn hR hC]
  simp only [hrow, hcol]
  split
  · rename_i h
    rw [h.1, h.2, Nat.add_sub_cancel_left, Nat.add_sub_cancel_left]
  · rfl

theorem get_setBlock {e : (Nat × Nat) × Mat α} (he : WellPlaced M.widths e) :
    (M.setBlock D e).get (M.offset i + r) (M.offset j + c) =
      if e.1 = (min i j, max i j) then (if j < i then e.2.get c r else e.2.get r c)
      else D.get (M.offset i + r) (M.offset j + c) := by
  obtain ⟨⟨p, q⟩, A⟩ := e
  obtain ⟨hle, hq, hA⟩ : p ≤ q ∧ q < M.count ∧ A.rows = M.width p ∧ A.cols = M.width q := he
  have hp : p < M.count := lt_of_le_of_lt hle hq
  have hplace : (p, q) = (min i j, max i j) ↔ p = i ∧ q = j ∨ q = i ∧ p = j := by
    rw [Prod.mk.injEq]
    omega
  have hfirst := get_overwrite hi hj hr hc hrows hcols hp hq hA
  unfold setBlock
  dsimp only
  by_cases hpq : p = q
  · subst hpq
    rw [if_pos rfl, hfirst]
    by_cases hij : p = i ∧ p = j
    · rw [if_pos hij, if_pos (hplace.mpr (.inl hij)), if_neg (by omega)]
    · rw [if_neg hij, if_neg (by rw [hplace]; omega)]
  · have hsecond := get_overwrite hi hj hr hc (D := D.overwrite A (M.offset p) (M.offset q)) hrows hcols
      (A := A.transpose) hq hp ⟨hA.2, hA.1⟩
    rw [if_neg hpq, hsecond, hfirst]
    by_cases hacross : q = i ∧ p = j
    · obtain ⟨rfl, rfl⟩ := hacross
      rw [if_pos ⟨rfl, rfl⟩, if_pos (hplace.mpr (.inr ⟨rfl, rfl⟩)), if_pos (by omega),
        Mat.get_transpose (hA.2.symm ▸ hr) (hA.1.symm ▸ hc)]
    · rw [if_neg hacross]
      by_cases hij : p = i ∧ q = j
      · rw [if_pos hij, if_pos (hplace.mpr (.inl hij)), if_neg (by omega)]
      · rw [if_neg hij, if_neg (by rw [hplace]; omega)]

/-- Blocks with places of their own are set side by side. -/
theorem get_foldl_setBlock {l : List ((Nat × Nat) × Mat α)} (hd : (l.map Prod.fst).Nodup)
    (hl : ∀ e ∈ l, WellPlaced M.widths e) :
    (l.foldl M.setBlock D).get (M.offset i + r) (M.offset j + c) =
      match Table.read (min i j, max i j) l with
      | some A => if j < i then A.get c r else A.get r c
      | none => D.get (M.offset i + r) (M.offset j + c) := by
  induction l generalizing D with
  | nil => rfl
  | cons e rest ih =>
    rw [List.map_cons, List.nodup_cons] at hd
    obtain ⟨he, hrest⟩ := List.forall_mem_cons.mp hl
    have hshape := shape_setBlock M D e
    rw [List.foldl_cons, ih (hshape.1.trans hrows) (hshape.2.trans hcols) hd.2 hrest,
      get_setBlock hi hj hr hc hrows hcols he, Table.read]
    by_cases hp : e.1 = (min i j, max i j)
    · rw [if_pos hp, if_pos hp, Table.read_eq_none_iff.mpr (hp ▸ hd.1)]
    · rw [if_neg hp, if_neg hp]

end Tiles

/-- An entry of a block is one of the stored block in the upper triangle, if there is one. -/
theorem get_get {M : BlockMatrix α} {i j r c : Nat} (hr : r < M.width i) (hc : c < M.width j) :
    (M.get i j).get r c =
      match M.blocks.find? (min i j, max i j) with
      | some A => if j < i then A.get c r else A.get r c
      | none => 0 := by
  unfold get
  by_cases hlow : j < i
  · have hshape := shape_upper M j i
    rw [if_pos hlow, Mat.get_transpose (hshape.2 ▸ hr) (hshape.1 ▸ hc), min_eq_right hlow.le, max_eq_left hlow.le, upper]
    cases M.blocks.find? (j, i) with
    | none => exact Mat.get_ofFn hc hr
    | some A => exact (if_pos hlow).symm
  · rw [if_neg hlow, min_eq_left (not_lt.mp hlow), max_eq_right (not_lt.mp hlow), upper]
    cases M.blocks.find? (i, j) with
    | none => exact Mat.get_ofFn hr hc
    | some A => exact (if_neg hlow).symm

/-- The whole matrix is made of the slabs of its stored blocks, which do not overlap. -/
theorem full_eq_tiled (M : BlockMatrix α) : M.full = M.tiled := by
  have hshape : M.tiled.rows = M.order ∧ M.tiled.cols = M.order :=
    shape_foldl_setBlock M _ (Mat.zeros M.order M.order)
  refine Mat.ext_get hshape.1.symm hshape.2.symm fun R C hR hC => ?_
  obtain ⟨hi, hr, hRe⟩ := locate_spec (show R < total M.widths from hR)
  obtain ⟨hj, hc, hCe⟩ := locate_spec (show C < total M.widths from hC)
  rw [get_full hR hC]
  generalize locate M.widths R = u at *
  generalize locate M.widths C = v at *
  subst hRe hCe
  have hzero : (Mat.zeros M.order M.order : Mat α).get (M.offset u.1 + u.2) (M.offset v.1 + v.2) = 0 :=
    Mat.get_ofFn hR hC
  rw [get_get hr hc, ← hzero]
  exact (get_foldl_setBlock hi hj hr hc rfl rfl M.blocks.distinct M.wellPlaced).symm
/-! ### Additions -/

structure Attempt (α : Type) where
  row : Int
  col : Int
  value : Tensor α

/-- Attempts one after the other, and those that were accepted. One that is refused changes nothing. -/
def attempt (M : BlockMatrix α) : List (Attempt α) → BlockMatrix α × List (Attempt α)
  | [] => (M, [])
  | a :: rest =>
    match M.add a.row a.col a.value with
    | .ok M' => ((M'.attempt rest).1, a :: (M'.attempt rest).2)
    | .error _ => M.attempt rest

/-- The array is a matrix of the shape of its place, which is in the upper triangle. -/
def Attempt.Fits (a : Attempt α) (widths : List Nat) : Prop :=
  ∃ A, a.value = .ofMat A ∧ (⟨a.row, a.col, A⟩ : Write α).Fits widths

theorem attempt_cons_of_fits {M : BlockMatrix α} {a : Attempt α} (rest : List (Attempt α))
    (h : a.Fits M.widths) : ∃ (A : Mat α) (hf : (⟨a.row, a.col, A⟩ : Write α).Fits M.widths),
      a.value = .ofMat A ∧ M.attempt (a :: rest) =
        (((M.write a.row.toNat a.col.toNat A hf.wellPlaced).attempt rest).1,
          a :: ((M.write a.row.toNat a.col.toNat A hf.wellPlaced).attempt rest).2) := by
  obtain ⟨A, hA, hf⟩ := h
  have hadd := (add_eq_ok (w := ⟨a.row, a.col, A⟩)).mpr ⟨hf, rfl⟩
  rw [← hA] at hadd
  refine ⟨A, hf, hA, ?_⟩
  rw [attempt, hadd]

/-- An attempt that does not fit is refused. -/
theorem attempt_cons_of_not_fits {M : BlockMatrix α} {a : Attempt α} (rest : List (Attempt α))
    (h : ¬ a.Fits M.widths) : M.attempt (a :: rest) = M.attempt rest := by
  have hrefused : ∃ e, M.add a.row a.col a.value = .error e := by
    cases hadd : M.add a.row a.col a.value with
    | error e => exact ⟨e, rfl⟩
    | ok M' =>
      refine absurd ?_ h
      cases hmat : a.value.mat? with
      | none =>
        unfold add at hadd
        simp only [hmat] at hadd
        split at hadd
        · cases hadd
        · split at hadd
          · split at hadd <;> cases hadd
          · cases hadd
      | some A =>
        have hA := Tensor.eq_ofMat_of_mat? hmat
        rw [hA] at hadd
        exact ⟨A, hA, ((add_eq_ok (w := ⟨a.row, a.col, A⟩)).mp hadd).1⟩
  obtain ⟨e, he⟩ := hrefused
  rw [attempt, he]

theorem widths_attempt (M : BlockMatrix α) (as : List (Attempt α)) : (M.attempt as).1.widths = M.widths := by
  induction as generalizing M with
  | nil => rfl
  | cons a rest ih =>
    by_cases h : a.Fits M.widths
    · obtain ⟨A, hf, -, hattempt⟩ := attempt_cons_of_fits rest h
      rw [hattempt, ih, widths_write]
    · rw [attempt_cons_of_not_fits rest h, ih]

open Classical in
/-- The attempts that are accepted are those that fit, in their order. -/
theorem accepted_eq (M : BlockMatrix α) (as : List (Attempt α)) :
    (M.attempt as).2 = as.filter fun a => a.Fits M.widths := by
  induction as generalizing M with
  | nil => rfl
  | cons a rest ih =>
    by_cases h : a.Fits M.widths
    · obtain ⟨A, hf, -, hattempt⟩ := attempt_cons_of_fits rest h
      rw [hattempt, ih, widths_write, List.filter_cons_of_pos (by simpa using h)]
    · rw [attempt_cons_of_not_fits rest h, ih, List.filter_cons_of_neg (by simpa using h)]

theorem perm_accepted (M : BlockMatrix α) {as bs : List (Attempt α)} (h : as.Perm bs) :
    (M.attempt as).2.Perm (M.attempt bs).2 := by
  rw [accepted_eq, accepted_eq]
  exact h.filter _

/-- The numbers that attempts add to an entry of a block. -/
def addends (as : List (Attempt α)) (i j r c : Nat) : List α :=
  (as.filter fun a : Attempt α => a.row = i ∧ a.col = j).map fun a => a.value.get [r, c]

theorem addends_cons (a : Attempt α) (as : List (Attempt α)) (i j r c : Nat) :
    addends (a :: as) i j r c =
      if a.row = i ∧ a.col = j then a.value.get [r, c] :: addends as i j r c else addends as i j r c := by
  unfold addends
  rw [List.filter_cons]
  by_cases h : a.row = i ∧ a.col = j
  · rw [if_pos h, if_pos (decide_eq_true h), List.map_cons]
  · rw [if_neg h, if_neg (by simpa using h)]

/-- An entry of the upper triangle is the sum of what was added to it, onto what was stored before. -/
theorem get_upper_attempt (M : BlockMatrix α) (as : List (Attempt α)) {i j r c : Nat} (hr : r < M.width i)
    (hc : c < M.width j) :
    ((M.attempt as).1.upper i j).get r c =
      Scalar.sumFrom ((M.blocks.find? (i, j)).map fun A => A.get r c) (addends (M.attempt as).2 i j r c) := by
  induction as generalizing M with
  | nil =>
    have hsum : Scalar.sumFrom ((M.blocks.find? (i, j)).map fun A => A.get r c) [] = _ := Scalar.sumFrom_nil _
    refine Eq.trans ?_ hsum.symm
    show (M.upper i j).get r c = _
    unfold upper
    cases M.blocks.find? (i, j) with
    | none => exact Mat.get_ofFn hr hc
    | some A => rfl
  | cons a rest ih =>
    by_cases h : a.Fits M.widths
    · obtain ⟨A, hf, hA, hattempt⟩ := attempt_cons_of_fits rest h
      have hrow := hf.row_nonneg
      have hle := hf.row_le_col
      have hplace : (a.row.toNat, a.col.toNat) = (i, j) ↔ a.row = i ∧ a.col = j := by
        rw [Prod.mk.injEq]
        dsimp only at hrow hle
        omega
      rw [hattempt]
      dsimp only
      rw [addends_cons, ih (M.write a.row.toNat a.col.toNat A hf.wellPlaced) hr hc, find?_write]
      by_cases hp : a.row = i ∧ a.col = j
      · rw [if_pos hp, if_pos (hplace.mpr hp), hplace.mpr hp, hA, Tensor.get_ofMat]
        cases hfind : M.blocks.find? (i, j) with
        | none => rfl
        | some B =>
          have hB := (M.wellPlaced _ (Table.mem_of_find? hfind)).2.2
          have hsum : (B + A).get r c = B.get r c + A.get r c := Mat.get_add (hB.1.symm ▸ hr) (hB.2.symm ▸ hc)
          exact congrArg (fun s => Scalar.sumFrom (some s) _) hsum
      · rw [if_neg hp, if_neg (mt hplace.mp hp)]
    · rw [attempt_cons_of_not_fits rest h, ih M hr hc]

/-- In a matrix that had no blocks a block of the upper triangle is the sum of what was added to it. -/
theorem upper_attempt {M : BlockMatrix α} (h : M.blocks = Table.empty) (as : List (Attempt α)) (i j : Nat) :
    (M.attempt as).1.upper i j =
      Mat.ofFn (M.width i) (M.width j) fun r c => Scalar.sumFrom none (addends (M.attempt as).2 i j r c) := by
  have hwidth : ∀ k, (M.attempt as).1.width k = M.width k := fun k => by rw [width, widths_attempt, width]
  have hshape := shape_upper (M.attempt as).1 i j
  rw [hwidth, hwidth] at hshape
  refine Mat.ext_get hshape.1 hshape.2 fun r c hr hc => ?_
  rw [hshape.1] at hr
  rw [hshape.2] at hc
  rw [get_upper_attempt M as hr hc, Mat.get_ofFn hr hc, h]
  rfl

/-! ### All views -/

/-- All views show the same numbers: the whole matrix is made of slabs, a block is what is in its rows and columns,
the block across is its transpose, and the last row and column are those of the linear and the constant term. -/
structure Consistent (M : BlockMatrix α) : Prop where
  tiles : M.full = M.tiled
  slab : ∀ i j : Nat, i < M.count → j < M.count → M.block i j =
    .ok (Mat.ofFn (M.width i) (M.width j) fun r c => M.full.get (M.offset i + r) (M.offset j + c))
  mirror : ∀ i j : Nat, i < M.count → j < M.count → i ≠ j → ∃ A, M.block i j = .ok A ∧ M.block j i = .ok A.transpose
  information : M.information = .ok (Mat.ofFn (M.order - 1) (M.order - 1) M.full.get)
  linearTerm : M.linearTerm = Vec.ofFn (M.order - 1) fun R => M.full.get R (M.order - 1)
  constantTerm : M.constantTerm = .ok (M.full.get (M.order - 1) (M.order - 1))

theorem block_eq_slab (M : BlockMatrix α) {i j : Nat} (hi : i < M.count) (hj : j < M.count) : M.block i j =
    .ok (Mat.ofFn (M.width i) (M.width j) fun r c => M.full.get (M.offset i + r) (M.offset j + c)) := by
  have hshape := shape_get M i j
  rw [block_natCast hi hj]
  refine congrArg Except.ok (Mat.ext_get hshape.1 hshape.2 fun r c hr hc => ?_)
  rw [hshape.1] at hr
  rw [hshape.2] at hc
  have hrow : locate M.widths (M.offset i + r) = (i, r) := locate_add hr
  have hcol : locate M.widths (M.offset j + c) = (j, c) := locate_add hc
  have hR : M.offset i + r < M.order := total_take_add_lt hi hr
  have hC : M.offset j + c < M.order := total_take_add_lt hj hc
  rw [Mat.get_ofFn hr hc, get_full hR hC, hrow, hcol]

/-- Two blocks across the diagonal are transposes of one another. -/
theorem get_mirror (M : BlockMatrix α) {i j : Nat} (h : i ≠ j) : M.get j i = (M.get i j).transpose := by
  unfold get
  rcases Nat.lt_or_gt_of_ne h with hlt | hlt
  · rw [if_pos hlt, if_neg hlt.not_gt]
  · rw [if_neg hlt.not_gt, if_pos hlt, Mat.transpose_transpose]

theorem consistent {M : BlockMatrix α} (hlast : M.widths.getLast? = some 1) : M.Consistent where
  tiles := full_eq_tiled M
  slab := fun _ _ hi hj => block_eq_slab M hi hj
  mirror := fun i j hi hj h => ⟨M.get i j, block_natCast hi hj, by rw [block_natCast hj hi, get_mirror M h]⟩
  information := by
    obtain ⟨l, hl, hlc, -, hend⟩ := last_of_getLast? hlast
    have hcount : M.count - 1 = l := by
      unfold lastSlot at hl
      omega
    have hne : M.widths ≠ [] := by
      rintro h
      rw [h] at hlast
      cases hlast
    rw [information, if_neg hne, hcount, ← hend, Nat.add_sub_cancel]
  linearTerm := by
    have hsize := size_linearTerm hlast
    refine Vec.ext_get (by rw [Vec.size_ofFn]; omega) fun R hR => ?_
    rw [get_linearTerm hlast (by omega), Vec.get_ofFn (by omega)]
  constantTerm := constantTerm_eq hlast

/-- **All views of a block matrix agree**, whatever was added to it and refused before. A block of the upper triangle
holds the sum of all that was accepted at its place, and where addition does not mind the order, every block is the
same in whatever order the additions are attempted. -/
theorem views_agree {counts : List Count} {augment : Bool} {M N : BlockMatrix α} {as made : List (Attempt α)}
    (h : ofCounts counts augment = .ok M) (hlast : M.widths.getLast? = some 1) (hN : M.attempt as = (N, made)) :
    N.Consistent ∧
    (∀ i j : Nat, i ≤ j → j < N.count → N.block i j =
      .ok (Mat.ofFn (M.width i) (M.width j) fun r c => Scalar.sumFrom none (addends made i j r c))) ∧
    (Std.Associative (α := α) (· + ·) → Std.Commutative (α := α) (· + ·) →
      ∀ bs : List (Attempt α), bs.Perm as → ∀ i j : Nat, (M.attempt bs).1.block i j = N.block i j) := by
  obtain ⟨-, -, -, -, hempty⟩ := ofCounts_parts h
  obtain rfl : (M.attempt as).1 = N := congrArg Prod.fst hN
  obtain rfl : (M.attempt as).2 = made := congrArg Prod.snd hN
  refine ⟨consistent (widths_attempt M as ▸ hlast), fun i j hij hj => ?_, fun hassoc hcomm bs hperm i j => ?_⟩
  · rw [block_natCast (lt_of_le_of_lt hij hj) hj, get, if_neg (not_lt.mpr hij), upper_attempt hempty]
  · have hsame : ∀ i j, (M.attempt bs).1.upper i j = (M.attempt as).1.upper i j := by
      intro i j
      rw [upper_attempt hempty, upper_attempt hempty]
      refine Mat.ofFn_congr fun r c _ _ => Scalar.sumFrom_perm hassoc hcomm ?_ none
      exact ((perm_accepted M hperm).filter _).map _
    have hindex : ∀ k, (M.attempt bs).1.index k = (M.attempt as).1.index k := fun k => by
      rw [index, index, count, count, widths_attempt, widths_attempt]
    rw [block_eq, block_eq, hindex, hindex, get, get, hsame, hsame]

/-- Two additions to one block, between one below the diagonal and one of the wrong shape. -/
def mixedAttempts : List (Attempt ℚ) :=
  [⟨0, 1, .ofMat (Mat.ofFn 2 1 fun r _ => r + 1)⟩, ⟨1, 0, .ofMat (Mat.ofFn 1 2 fun _ _ => 1)⟩,
    ⟨0, 1, .ofMat (Mat.ofFn 2 2 fun _ _ => 1)⟩, ⟨0, 1, .ofMat (Mat.ofFn 2 1 fun _ _ => 5)⟩]

/-- Two of the four attempts are accepted, and in the opposite order they leave the same block. -/
theorem views_agree_mixedAttempts : ∃ M N : BlockMatrix ℚ, ∃ made,
    ofCounts [.whole 2] true = .ok M ∧ M.widths.getLast? = some 1 ∧ M.attempt mixedAttempts = (N, made) ∧
    made.length = 2 ∧ N.Consistent ∧ (N.block 0 1).toOption.map (fun A => [A.get 0 0, A.get 1 0]) = some [6, 7] ∧
    (M.attempt mixedAttempts.reverse).1.block 0 1 = N.block 0 1 := by
  obtain ⟨M, hM⟩ : ∃ M : BlockMatrix ℚ, M = ofWidths [2, 1] (by decide) := ⟨_, rfl⟩
  have hcounts : ofCounts [.whole 2] true = .ok M := hM ▸ rfl
  have hlast : M.widths.getLast? = some 1 := by rw [hM]; rfl
  obtain ⟨hviews, hsum, horder⟩ := views_agree hcounts hlast (Prod.eta (M.attempt mixedAttempts)).symm
  refine ⟨M, _, _, hcounts, hlast, rfl, ?_, hviews, ?_, ?_⟩
  · rw [hM]
    decide +kernel
  · rw [hM]
    decide +kernel
  · exact horder ⟨Rat.add_assoc⟩ ⟨Rat.add_comm⟩ _ (List.reverse_perm _) 0 1

end BlockMatrix
end BundleAdjustment
