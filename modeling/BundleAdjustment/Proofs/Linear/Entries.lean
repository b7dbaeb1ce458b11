import BundleAdjustment.Proofs.Coordinates
import BundleAdjustment.Proofs.Linear.Writes

/-!
The entries of a block matrix.

A row of the whole matrix is row `r` of a block row `i`, found by `locate`; the entry there is
read off the block (`get_full`). A write adds its value to its own block and, off the diagonal,
its transpose to the block across (`get_write`), and a list of writes adds all of theirs
(`get_writeAll`).
-/
namespace BundleAdjustment.BlockMatrix

theorem locate_spec {widths : List Nat} {R : Nat} (h : R < total widths) :
    (locate widths R).1 < widths.length ∧ (locate widths R).2 < widths.getD (locate widths R).1 0 ∧
      total (widths.take (locate widths R).1) + (locate widths R).2 = R := by
  induction widths generalizing R with
  | nil => simp at h
  | cons w rest ih =>
    unfold locate
    by_cases hw : R < w
    · simp [hw]
    · have hr : R - w < total rest := by
        rw [total_cons] at h
        omega
      obtain ⟨h1, h2, h3⟩ := ih hr
      simp only [if_neg hw, List.length_cons, List.getD_cons_succ, List.take_succ_cons, total_cons]
      exact ⟨by omega, h2, by omega⟩

theorem total_append (l l' : List Nat) : total (l ++ l') = total l + total l' := by
  induction l with
  | nil => simp
  | cons w rest ih => rw [List.cons_append, total_cons, total_cons, ih, Nat.add_assoc]

theorem total_take_succ {widths : List Nat} {i : Nat} (h : i < widths.length) :
    total (widths.take (i + 1)) = total (widths.take i) + widths.getD i 0 := by
  rw [List.take_succ_eq_append_getElem h, total_append]
  simp [List.getD_eq_getElem?_getD, List.getElem?_eq_getElem h]

theorem total_take_mono (widths : List Nat) {i j : Nat} (h : i ≤ j) :
    total (widths.take i) ≤ total (widths.take j) := by
  have hsplit : widths.take j = widths.take i ++ (widths.take j).drop i := by
    have := List.take_append_drop i (widths.take j)
    rwa [List.take_take, Nat.min_eq_left h, eq_comm] at this
  rw [hsplit, total_append]
  omega

theorem total_take_add_lt {widths : List Nat} {i r : Nat} (hi : i < widths.length)
    (hr : r < widths.getD i 0) : total (widths.take i) + r < total widths := by
  have hsucc := total_take_succ hi
  have hmono := total_take_mono widths (show i + 1 ≤ widths.length from hi)
  rw [List.take_length] at hmono
  omega

/-- Block rows do not overlap: a row lies in the columns of one block only. -/
theorem mem_block_iff {widths : List Nat} {s i r : Nat} (hs : s < widths.length)
    (hi : i < widths.length) (hr : r < widths.getD i 0) :
    (total (widths.take s) ≤ total (widths.take i) + r ∧
      total (widths.take i) + r < total (widths.take s) + widths.getD s 0) ↔ s = i := by
  constructor
  · rintro ⟨hle, hlt⟩
    have hsi := total_take_succ hi
    have hss := total_take_succ hs
    by_contra hne
    rcases Nat.lt_or_gt_of_ne hne with h | h
    · have := total_take_mono widths (show s + 1 ≤ i from h)
      omega
    · have := total_take_mono widths (show i + 1 ≤ s from h)
      omega
  · rintro rfl
    omega

/-- A last block of width one is the last slot and ends the matrix. -/
theorem last_of_getLast? {α : Type} {M : BlockMatrix α} (h : M.widths.getLast? = some 1) :
    ∃ l : Nat, M.lastSlot = l ∧ l < M.count ∧ M.width l = 1 ∧ M.offset l + 1 = M.order := by
  obtain ⟨l, hl⟩ : ∃ l, M.count = l + 1 := by
    cases hc : M.count with
    | zero => rw [List.length_eq_zero_iff.mp hc] at h; cases h
    | succ l => exact ⟨l, rfl⟩
  have hlen : M.widths.length = l + 1 := hl
  have hw : M.width l = 1 := by
    rw [List.getLast?_eq_getElem?, hlen, Nat.add_sub_cancel] at h
    rw [width, List.getD_eq_getElem?_getD, h]
    rfl
  refine ⟨l, by rw [lastSlot, hl]; omega, by omega, hw, ?_⟩
  have ht := total_take_succ (show l < M.widths.length by omega)
  rw [← hlen, List.take_length] at ht
  have hw' : M.widths.getD l 0 = 1 := hw
  rw [order, offset]
  omega

/-! ### Blocks -/

section Blocks
variable {α : Type} [Scalar α]

theorem shape_upper (M : BlockMatrix α) (i j : Nat) :
    (M.upper i j).rows = M.width i ∧ (M.upper i j).cols = M.width j := by
  unfold upper
  cases hf : M.blocks.find? (i, j) with
  | none => exact ⟨rfl, rfl⟩
  | some A => exact (M.wellPlaced _ (Table.mem_of_find? hf)).2.2

theorem shape_get (M : BlockMatrix α) (i j : Nat) :
    (M.get i j).rows = M.width i ∧ (M.get i j).cols = M.width j := by
  unfold get
  split
  · exact (shape_upper M j i).symm
  · exact shape_upper M i j

theorem get_full {M : BlockMatrix α} {R C : Nat} (hR : R < M.order) (hC : C < M.order) :
    M.full.get R C = (M.get (locate M.widths R).1 (locate M.widths C).1).get
      (locate M.widths R).2 (locate M.widths C).2 :=
  Mat.get_ofFn hR hC

omit [Scalar α] in
theorem index_natCast {M : BlockMatrix α} {i : Nat} (h : i < M.count) : M.index i = .ok i := by
  rw [index, if_pos ⟨Int.natCast_nonneg i, Int.ofNat_lt.mpr h⟩, Int.toNat_natCast]

/-- A block is read from its place in the upper triangle, where that is within the matrix. -/
theorem block_eq (M : BlockMatrix α) (i j : Nat) :
    M.block i j = (do let _ ← M.index ↑(min i j); let _ ← M.index ↑(max i j); return M.get i j) := by
  unfold block get
  by_cases hlow : j < i
  · rw [if_pos (Int.ofNat_lt.mpr hlow), if_pos hlow, min_eq_right hlow.le, max_eq_left hlow.le]
    unfold index
    split
    · split <;> rfl
    · rfl
  · have hle : i ≤ j := not_lt.mp hlow
    rw [if_neg (mt Int.ofNat_lt.mp hlow), if_neg hlow, min_eq_left hle, max_eq_right hle]
    unfold index
    split
    · split <;> rfl
    · rfl

theorem block_natCast {M : BlockMatrix α} {i j : Nat} (hi : i < M.count) (hj : j < M.count) :
    M.block i j = .ok (M.get i j) := by
  rw [block_eq, index_natCast (min_lt_of_left_lt hi), index_natCast (max_lt hi hj)]
  rfl

end Blocks

/-! ### Writes -/

section Writes
variable {K : Type} [ExactScalar K]

theorem get_upper_write {M : BlockMatrix K} {i j p q r c : Nat} {A : Mat K}
    (h : WellPlaced M.widths ((i, j), A)) (hr : r < M.width p) (hc : c < M.width q) :
    ((M.write i j A h).upper p q).get r c =
      (M.upper p q).get r c + if i = p ∧ j = q then A.get r c else 0 := by
  rw [upper_write]
  by_cases hp : (i, j) = (p, q)
  · rw [if_pos hp]
    cases hp
    rw [if_pos ⟨rfl, rfl⟩]
    have hu := shape_upper M i j
    unfold upper at hu ⊢
    cases hf : M.blocks.find? (i, j) with
    | none => simp only [sumWith, Mat.zeros, Mat.get_ofFn hr hc, zero_add]
    | some B =>
      simp only [hf] at hu
      exact Mat.get_add (hu.1 ▸ hr) (hu.2 ▸ hc)
  · have hp' : ¬ (i = p ∧ j = q) := fun he => hp (Prod.ext he.1 he.2)
    rw [if_neg hp, if_neg hp', add_zero]

/-- What a write adds to entry `(r, c)` of block `(i, j)` of the whole matrix. -/
def Write.entry (w : Write K) (i r j c : Nat) : K :=
  if w.row = i ∧ w.col = j then w.value.get r c
  else if w.row = j ∧ w.col = i then w.value.get c r
  else 0

theorem get_write {M : BlockMatrix K} {w : Write K} (h : w.Fits M.widths) {i r j c : Nat}
    (hr : r < M.width i) (hc : c < M.width j) :
    ((M.write w.row.toNat w.col.toNat w.value h.wellPlaced).get i j).get r c =
      (M.get i j).get r c + w.entry i r j c := by
  have hrow := h.row_nonneg
  have hle := h.row_le_col
  have hiff : ∀ p q : Nat, (w.row.toNat = p ∧ w.col.toNat = q) ↔ (w.row = p ∧ w.col = q) := by omega
  unfold get Write.entry
  by_cases hlow : j < i
  · have hne : ¬ (w.row = i ∧ w.col = j) := by omega
    have hs := shape_upper M j i
    have hs' := shape_upper (M.write w.row.toNat w.col.toNat w.value h.wellPlaced) j i
    rw [if_pos hlow, if_pos hlow, if_neg hne, Mat.get_transpose (hs'.2 ▸ hr) (hs'.1 ▸ hc),
      Mat.get_transpose (hs.2 ▸ hr) (hs.1 ▸ hc), get_upper_write _ hc hr]
    simp only [hiff]
  · rw [if_neg hlow, if_neg hlow, get_upper_write _ hr hc]
    simp only [hiff]
    by_cases hij : w.row = i ∧ w.col = j
    · rw [if_pos hij, if_pos hij]
    · have hji : ¬ (w.row = j ∧ w.col = i) := by omega
      rw [if_neg hij, if_neg hij, if_neg hji]

theorem get_writeAll {M : BlockMatrix K} {ws : List (Write K)} (h : ∀ w ∈ ws, w.Fits M.widths)
    {i r j c : Nat} (hr : r < M.width i) (hc : c < M.width j) :
    ((M.writeAll ws).1.get i j).get r c =
      (M.get i j).get r c + (ws.map fun w => w.entry i r j c).sum := by
  induction ws generalizing M with
  | nil => simp [writeAll]
  | cons w rest ih =>
    have hw := h w (List.mem_cons_self ..)
    rw [writeAll_cons_of_fits hw, List.map_cons, List.sum_cons, ← add_assoc, ← get_write hw hr hc]
    exact ih (fun u hu => h u (List.mem_cons_of_mem w hu)) hr hc

end Writes

/-! ### The right-hand side -/

section Parts
variable {α : Type} [Scalar α]

theorem size_concat (l : List (Vec α)) : (Vec.concat l).size = total (l.map Vec.size) := by
  induction l with
  | nil => rfl
  | cons v rest ih => rw [List.map_cons, total_cons, ← ih, Vec.concat_cons, Vec.size_append]

/-- A number of joined vectors is found in its vector, at its place. -/
theorem get_concat {l : List (Vec α)} {i r : Nat} {v : Vec α} (hi : l[i]? = some v) (hr : r < v.size) :
    (Vec.concat l).get (total ((l.map Vec.size).take i) + r) = v.get r := by
  induction l generalizing i with
  | nil => cases hi
  | cons u rest ih =>
    cases i with
    | zero =>
      cases hi
      rw [List.take_zero, total_nil, Nat.zero_add, Vec.concat_cons, Vec.get_append_left hr]
    | succ i =>
      rw [List.map_cons, List.take_succ_cons, total_cons, Vec.concat_cons, Nat.add_assoc,
        Vec.get_append_right, ih hi]

theorem size_column (A : Mat α) (j : Nat) : (A.column j).size = A.rows := Vec.size_ofFn _ _

theorem sizes_lastColumn {M : BlockMatrix α} {l : Nat} (hl : l < M.count) :
    ((List.range l).map fun i => (M.get i l).column 0).map Vec.size = M.widths.take l := by
  refine List.ext_getElem ?_ fun i h₁ h₂ => ?_
  · simp only [List.length_map, List.length_range, List.length_take]
    exact (Nat.min_eq_left (le_of_lt hl)).symm
  · have hi : i < l := by simpa using h₁
    have hlen : i < M.widths.length := lt_trans hi hl
    have hw : M.width i = M.widths[i] := by
      rw [width, List.getD_eq_getElem?_getD, List.getElem?_eq_getElem hlen]
      rfl
    simp only [List.getElem_map, List.getElem_range, List.getElem_take, size_column]
    rw [(shape_get M i l).1, hw]

omit [Scalar α] in
/-- The last row is that of a last block of width one. -/
theorem locate_last {M : BlockMatrix α} {l : Nat} (hw : M.width l = 1) (hend : M.offset l + 1 = M.order) :
    locate M.widths (M.order - 1) = (l, 0) := by
  have hw : M.widths.getD l 0 = 1 := hw
  have hadd := locate_add (hw.symm ▸ Nat.one_pos : 0 < M.widths.getD l 0)
  have hoff : total (M.widths.take l) = M.offset l := rfl
  rw [Nat.add_zero, hoff] at hadd
  rw [← hend, Nat.add_sub_cancel, hadd]

/-- The linear term is the last column of the whole matrix, without its last entry. -/
theorem get_linearTerm {M : BlockMatrix α} (hlast : M.widths.getLast? = some 1) {R : Nat}
    (hR : R + 1 < M.order) : M.linearTerm.get R = M.full.get R (M.order - 1) := by
  obtain ⟨l, hl, hlc, hlw, hend⟩ := last_of_getLast? hlast
  have hcount : M.count - 1 = l := by
    unfold lastSlot at hl
    omega
  have hoff : total (M.widths.take l) = M.offset l := rfl
  obtain ⟨-, hr, hRe⟩ := locate_spec (show R < total M.widths from Nat.lt_of_succ_lt hR)
  have hil : (locate M.widths R).1 < l := by
    by_contra hge
    have hmono := total_take_mono M.widths (not_lt.mp hge)
    omega
  have hlocate := locate_last hlw hend
  have hblock : ((List.range l).map fun i => (M.get i l).column 0)[(locate M.widths R).1]? =
      some ((M.get (locate M.widths R).1 l).column 0) := by
    rw [List.getElem?_map, List.getElem?_range hil]
    rfl
  have hrow : (locate M.widths R).2 < (M.get (locate M.widths R).1 l).rows := by
    rw [(shape_get M _ l).1]
    exact hr
  have hget := get_concat hblock ((size_column (M.get (locate M.widths R).1 l) 0).symm ▸ hrow)
  rw [sizes_lastColumn hlc, List.take_take, Nat.min_eq_left (le_of_lt hil), hRe] at hget
  rw [get_full (Nat.lt_of_succ_lt hR) (by omega), hlocate, linearTerm, hcount, hget]
  exact Vec.get_ofFn hrow

theorem size_linearTerm {M : BlockMatrix α} (hlast : M.widths.getLast? = some 1) :
    M.linearTerm.size + 1 = M.order := by
  obtain ⟨l, hl, hlc, -, hend⟩ := last_of_getLast? hlast
  have hcount : M.count - 1 = l := by
    unfold lastSlot at hl
    omega
  rw [linearTerm, hcount, size_concat, sizes_lastColumn hlc]
  exact hend

/-- The constant term is the last entry of the whole matrix. -/
theorem constantTerm_eq {M : BlockMatrix α} (hlast : M.widths.getLast? = some 1) :
    M.constantTerm = .ok (M.full.get (M.order - 1) (M.order - 1)) := by
  obtain ⟨l, hl, hlc, hlw, hend⟩ := last_of_getLast? hlast
  have hpos : M.order - 1 < M.order := by omega
  rw [get_full hpos hpos, locate_last hlw hend, constantTerm, hl, block_natCast hlc hlc]
  rfl

/-- Matrices of the same widths and entries have the same parts. -/
theorem parts_congr {M N : BlockMatrix α} (hlast : M.widths.getLast? = some 1) (hw : N.widths = M.widths)
    (hfull : ∀ R C, R < M.order → C < M.order → N.full.get R C = M.full.get R C) :
    N.information = M.information ∧ N.linearTerm = M.linearTerm ∧ N.constantTerm = M.constantTerm := by
  have hlastN : N.widths.getLast? = some 1 := hw ▸ hlast
  have horder : N.order = M.order := by rw [order, hw, order]
  have heq : N.full = M.full := by
    refine Mat.ext_get horder horder fun R C hR hC => ?_
    have hR : R < N.order := hR
    have hC : C < N.order := hC
    exact hfull R C (horder ▸ hR) (horder ▸ hC)
  have hsizeN := size_linearTerm hlastN
  have hsize := size_linearTerm hlast
  refine ⟨?_, Vec.ext_get (by omega) fun R hR => ?_, ?_⟩
  · rw [information, information, hw, heq, count, count, offset, offset, hw]
  · rw [get_linearTerm hlastN (by omega), get_linearTerm hlast (by omega), horder, heq]
  · rw [constantTerm_eq hlastN, constantTerm_eq hlast, horder, heq]

end Parts
end BundleAdjustment.BlockMatrix
