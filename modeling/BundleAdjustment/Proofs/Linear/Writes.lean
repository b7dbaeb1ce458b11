import BundleAdjustment.Linear.BlockMatrix
import BundleAdjustment.Proofs.Faults

/-!
Which writes a block matrix accepts.

A write is accepted exactly if it lies on or above the diagonal and has the shape of its block
(`add_eq_ok`); that depends on the widths alone, which no write changes, so a list of writes
succeeds exactly if each of them fits (`writeAll_eq_ok_iff`).
-/
namespace BundleAdjustment.BlockMatrix
variable {α : Type} [Scalar α]

omit [Scalar α] in
/-- A matrix is made of widths that are all positive, and nothing is in it. -/
theorem ofCounts_parts {counts : List Count} {augment : Bool} {M : BlockMatrix α}
    (h : ofCounts counts augment = .ok M) :
    ∃ given : List Int, counts.mapM Count.truncate = .ok given ∧
      (∀ n ∈ if augment then given ++ [1] else given, 0 < n) ∧
      M.widths = (if augment then given ++ [1] else given).map Int.toNat ∧ M.blocks = Table.empty := by
  obtain ⟨given, hg, h⟩ := bind_eq_ok.mp h
  dsimp only at h
  by_cases hpos : ∀ n ∈ if augment then given ++ [1] else given, 0 < n
  · rw [dif_pos hpos] at h
    rw [← pure_eq_ok.mp h]
    exact ⟨given, hg, hpos, rfl, rfl⟩
  · rw [dif_neg hpos] at h
    cases h

structure Write.Fits (w : Write α) (widths : List Nat) : Prop where
  row_nonneg : 0 ≤ w.row
  row_le_col : w.row ≤ w.col
  wellPlaced : WellPlaced widths ((w.row.toNat, w.col.toNat), w.value)

theorem add_eq_ok {M M' : BlockMatrix α} {w : Write α} :
    M.add w.row w.col (.ofMat w.value) = .ok M' ↔
      ∃ h : w.Fits M.widths, M' = M.write w.row.toNat w.col.toNat w.value h.wellPlaced := by
  unfold add
  constructor
  · intro h
    by_cases hlow : w.col < w.row
    · rw [if_pos hlow] at h
      cases h
    by_cases hrow : 0 ≤ w.row ∧ w.row < M.count
    · by_cases hcol : 0 ≤ w.col ∧ w.col < M.count
      · rw [if_neg hlow, if_pos hrow, if_pos hcol] at h
        by_cases hw : WellPlaced M.widths ((w.row.toNat, w.col.toNat), w.value)
        · have hM := (dif_pos hw).symm.trans h
          exact ⟨⟨hrow.1, Int.not_lt.mp hlow, hw⟩, by cases hM; rfl⟩
        · have hM := (dif_neg hw).symm.trans h
          cases hM
      · rw [if_neg hlow, if_pos hrow, if_neg hcol] at h
        cases h
    · rw [if_neg hlow, if_neg hrow] at h
      cases h
  · rintro ⟨⟨hrow, hle, hw⟩, rfl⟩
    have hcount : w.col.toNat < M.count := hw.2.1
    rw [if_neg (by omega), if_pos (by omega), if_pos (by omega)]
    exact dif_pos hw

theorem find?_write {M : BlockMatrix α} {i j : Nat} {A : Mat α} (h : WellPlaced M.widths ((i, j), A))
    (p : Nat × Nat) : (M.write i j A h).blocks.find? p =
      if (i, j) = p then some (sumWith (M.blocks.find? (i, j)) A) else M.blocks.find? p :=
  Table.find?_insert ..

theorem writeAll_cons_of_fits {M : BlockMatrix α} {w : Write α} {rest : List (Write α)}
    (h : w.Fits M.widths) :
    M.writeAll (w :: rest) = (M.write w.row.toNat w.col.toNat w.value h.wellPlaced).writeAll rest := by
  have hadd := add_eq_ok.mpr ⟨h, rfl⟩
  rw [writeAll, hadd]

theorem writeAll_cons_of_not_fits {M : BlockMatrix α} {w : Write α} (rest : List (Write α))
    (h : ¬ w.Fits M.widths) : ∃ e, M.writeAll (w :: rest) = (M, .error e) := by
  rw [writeAll]
  cases hadd : M.add w.row w.col (.ofMat w.value) with
  | ok M' => exact absurd (add_eq_ok.mp hadd).1 h
  | error e => exact ⟨e, rfl⟩

/-- Writes never change the widths. -/
theorem widths_writeAll (M : BlockMatrix α) (ws : List (Write α)) :
    (M.writeAll ws).1.widths = M.widths := by
  induction ws generalizing M with
  | nil => rfl
  | cons w rest ih =>
    by_cases h : w.Fits M.widths
    · rw [writeAll_cons_of_fits h, ih, widths_write]
    · obtain ⟨e, he⟩ := writeAll_cons_of_not_fits rest h
      rw [he]

/-- Writes succeed exactly if each of them fits. -/
theorem writeAll_eq_ok_iff {M : BlockMatrix α} {ws : List (Write α)} :
    (M.writeAll ws).2 = .ok () ↔ ∀ w ∈ ws, w.Fits M.widths := by
  induction ws generalizing M with
  | nil => simp [writeAll]
  | cons w rest ih =>
    rw [List.forall_mem_cons]
    by_cases h : w.Fits M.widths
    · rw [writeAll_cons_of_fits h, ih, widths_write]
      exact ⟨fun hr => ⟨h, hr⟩, fun hr => hr.2⟩
    · obtain ⟨e, he⟩ := writeAll_cons_of_not_fits rest h
      rw [he]
      constructor
      · intro hr
        cases hr
      · intro hr
        exact absurd hr.1 h

theorem writeAll_append {M : BlockMatrix α} {ws rest : List (Write α)}
    (h : ∀ w ∈ ws, w.Fits M.widths) : M.writeAll (ws ++ rest) = (M.writeAll ws).1.writeAll rest := by
  induction ws generalizing M with
  | nil => rfl
  | cons w ws ih =>
    have hw := h w (List.mem_cons_self ..)
    rw [List.cons_append, writeAll_cons_of_fits hw, writeAll_cons_of_fits hw]
    refine ih fun u hu => ?_
    rw [widths_write]
    exact h u (List.mem_cons_of_mem w hu)

end BundleAdjustment.BlockMatrix
