import BundleAdjustment.Proofs.Exact
import BundleAdjustment.Proofs.Linear.Placement

/-!
What a rejected factor leaves behind.

The checks before the first write cover everything but the shape of the last block column. Where
that column is one wide no write is refused, and a rejected factor leaves the matrix as it was.
Elsewhere the products of the lowest slot are written before the first column of the right-hand
side is refused, and they stay (`addTo_rejected`).
-/
namespace BundleAdjustment

theorem BlockMatrix.width_lastSlot {α : Type} {M : BlockMatrix α} (h : 0 < M.count) :
    M.width M.lastSlot.toNat = 1 ↔ M.widths.getLast? = some 1 := by
  have hlast : M.lastSlot.toNat = M.widths.length - 1 := by
    unfold lastSlot count
    omega
  have hlt : M.widths.length - 1 < M.widths.length := Nat.sub_lt h Nat.one_pos
  rw [hlast, List.getLast?_eq_getElem?, List.getElem?_eq_getElem hlt, width,
    List.getD_eq_getElem?_getD, List.getElem?_eq_getElem hlt, Option.getD_some, Option.some_inj]

namespace LinearFactor
variable {α : Type} [Scalar α]

/-- The products of the matrix in the lowest slot with itself and with those after it. -/
def firstProducts (t : Int × Mat α) (rest : List (Int × Mat α)) : List (BlockMatrix.Write α) :=
  (t :: rest).map fun u => ⟨t.1, u.1, t.2.gram u.2⟩

theorem fits_firstProducts {M : BlockMatrix α} {t : Int × Mat α} {rest : List (Int × Mat α)}
    (horder : (t :: rest).Pairwise fun t u => t.1 < u.1)
    (hin : ∀ u ∈ t :: rest, 0 ≤ u.1 ∧ u.1 < M.lastSlot ∧ u.2.cols = M.width u.1.toNat) :
    ∀ w ∈ firstProducts t rest, w.Fits M.widths := by
  intro w hw
  refine fits_crossWrites horder ?_ w (List.mem_append_left _ hw)
  intro u hu
  obtain ⟨h0, hl, hc⟩ := hin u hu
  refine ⟨h0, ?_, hc⟩
  show u.1.toNat < M.count
  unfold BlockMatrix.lastSlot at hl
  omega

/-- These products are written; that with the right-hand side is refused, unless the last block is
one wide. -/
theorem writeAll_crossWrites_of_last {M : BlockMatrix α} {b : Vec α} {t : Int × Mat α}
    {rest : List (Int × Mat α)} (hlast : M.width M.lastSlot.toNat ≠ 1)
    (horder : (t :: rest).Pairwise fun t u => t.1 < u.1)
    (hin : ∀ u ∈ t :: rest, 0 ≤ u.1 ∧ u.1 < M.lastSlot ∧ u.2.cols = M.width u.1.toNat) :
    ∃ e, M.writeAll (crossWrites (t :: rest ++ [(M.lastSlot, Mat.ofColumn b)])) =
      ((M.writeAll (firstProducts t rest)).1, .error e) := by
  have hrefused : ¬ (⟨t.1, M.lastSlot, t.2.gram (Mat.ofColumn b)⟩ : BlockMatrix.Write α).Fits M.widths := by
    intro h
    exact hlast h.wellPlaced.2.2.2.symm
  have hsplit : crossWrites (t :: rest ++ [(M.lastSlot, Mat.ofColumn b)]) =
      firstProducts t rest ++ ⟨t.1, M.lastSlot, t.2.gram (Mat.ofColumn b)⟩ ::
        crossWrites (rest ++ [(M.lastSlot, Mat.ofColumn b)]) := by
    simp [crossWrites, firstProducts]
  rw [← BlockMatrix.widths_writeAll M (firstProducts t rest)] at hrefused
  obtain ⟨e, he⟩ := BlockMatrix.writeAll_cons_of_not_fits
    (crossWrites (rest ++ [(M.lastSlot, Mat.ofColumn b)])) hrefused
  exact ⟨e, by rw [hsplit, BlockMatrix.writeAll_append (fits_firstProducts horder hin), he]⟩

/-- A rejected factor leaves the matrix as it was, or passed every check and met a last block
that is not one wide. -/
theorem addTo_rejected {f : LinearFactor α} {slots : SlotTable} {M : BlockMatrix α} {e : Fault}
    (h : (f.addTo slots M).2 = .error e) :
    (f.addTo slots M).1 = M ∨ M.width M.lastSlot.toNat ≠ 1 ∧ ∃ g t rest,
      f.FoldsTo g ∧ g.PlacedIn slots M ∧ (g.placed slots).mergeSort (fun s t => s.1 ≤ t.1) = t :: rest ∧
        (f.addTo slots M).1 = (M.writeAll (firstProducts t rest)).1 := by
  unfold addTo at h ⊢
  cases hw : f.writes slots M with
  | error e => exact .inl rfl
  | ok ws =>
    rw [hw] at h
    rcases writes_eq_ok hw with ⟨_, rfl⟩ | ⟨hne, g, hfold, hg, rfl⟩
    · cases h
    · have hlast : M.width M.lastSlot.toNat ≠ 1 := by
        intro h1
        have hok := writeAll_crossWrites hg h1
        cases hok.symm.trans h
      obtain ⟨t, rest, hl⟩ : ∃ t rest, (g.placed slots).mergeSort (fun s t => s.1 ≤ t.1) = t :: rest := by
        cases hl : (g.placed slots).mergeSort fun s t => s.1 ≤ t.1 with
        | nil =>
          have hlen := congrArg List.length hl
          have hempty := hfold.isEmpty_eq.trans hne
          rw [List.length_mergeSort, placed, List.length_map] at hlen
          rw [isEmpty, List.isEmpty_iff_length_eq_zero.mpr hlen] at hempty
          cases hempty
        | cons t rest => exact ⟨t, rest, rfl⟩
      have hsorted := pairwise_placed hg
      rw [inOrder, hl] at hsorted
      obtain ⟨e, he⟩ := writeAll_crossWrites_of_last (b := g.rhs) hlast (List.pairwise_append.mp hsorted).1
        fun u hu => bounds_of_mem_placed hg (List.mem_mergeSort.mp (hl ▸ hu))
      refine .inr ⟨hlast, g, t, rest, hfold, hg, hl, ?_⟩
      show (M.writeAll (crossWrites (inOrder g.rhs M.lastSlot (g.placed slots)))).1 = _
      rw [inOrder, hl, he]

def blank (width : Nat) : LinearFactor α where
  kind := .general
  terms := ⟨[(.number 0, Mat.zeros 1 width)], List.nodup_singleton _⟩
  rhs := Vec.zeros 1
  model := none
  rows_eq := fun e he => by
    rw [List.mem_singleton.mp he]
    exact (Vec.size_ofFn 1 _).symm
  model_rows := fun _ h => nomatch h
  fits := trivial

theorem placedIn_blank {M : BlockMatrix α} (h : 1 < M.count) :
    (blank (M.width 0) : LinearFactor α).PlacedIn (.ordering [.number 0]) M where
  found := fun k hk => by
    rw [List.mem_singleton.mp hk]
    rfl
  distinct := List.nodup_singleton _
  unknowns := fun e he => by
    rw [List.mem_singleton.mp he]
    refine ⟨le_rfl, ?_⟩
    show (0 : Int) < M.lastSlot
    unfold BlockMatrix.lastSlot
    omega
  widths := fun e he => by
    rw [List.mem_singleton.mp he]
    rfl

/-- Zeros are written to a block that was not there before the factor is rejected. -/
theorem addTo_blank {M : BlockMatrix α} (h : 1 < M.count) (hlast : M.width M.lastSlot.toNat ≠ 1)
    (hempty : M.blocks = Table.empty) :
    ∃ e, ((blank (M.width 0) : LinearFactor α).addTo (.ordering [.number 0]) M).2 = .error e ∧
      ((blank (M.width 0) : LinearFactor α).addTo (.ordering [.number 0]) M).1.blocks ≠ M.blocks := by
  have hg := placedIn_blank h
  have hw : (blank (M.width 0)).writes (.ordering [.number 0]) M = .ok _ :=
    (plainWrites_eq_ok rfl).mpr ⟨hg, rfl⟩
  have hl : ((blank (M.width 0) : LinearFactor α).placed (.ordering [.number 0])).mergeSort
      (fun s t => s.1 ≤ t.1) = [(0, Mat.zeros 1 (M.width 0))] := List.mergeSort_singleton _
  have horder := List.pairwise_singleton (fun t u : Int × Mat α => t.1 < u.1) (0, Mat.zeros 1 (M.width 0))
  have hin : ∀ u ∈ [((0 : Int), (Mat.zeros 1 (M.width 0) : Mat α))],
      0 ≤ u.1 ∧ u.1 < M.lastSlot ∧ u.2.cols = M.width u.1.toNat :=
    fun u hu => bounds_of_mem_placed hg (List.mem_mergeSort.mp (hl ▸ hu))
  obtain ⟨e, he⟩ := writeAll_crossWrites_of_last (b := (blank (M.width 0)).rhs) hlast horder hin
  have hadd : (blank (M.width 0)).addTo (.ordering [.number 0]) M =
      ((M.writeAll (firstProducts (0, Mat.zeros 1 (M.width 0)) [])).1, .error e) := by
    rw [addTo, hw, inOrder, hl]
    exact he
  have hfirst : M.writeAll [⟨0, 0, (Mat.zeros 1 (M.width 0)).gram (Mat.zeros 1 (M.width 0))⟩] = _ :=
    BlockMatrix.writeAll_cons_of_fits (fits_firstProducts horder hin _ (List.mem_cons_self ..))
  refine ⟨e, by rw [hadd], ?_⟩
  rw [hadd, firstProducts, List.map_singleton, hfirst, hempty]
  intro hb
  have hfind := congrArg (fun b => b.find? (0, 0)) hb
  have hsome := Table.find?_insert M.blocks (0, 0) (0, 0)
    (BlockMatrix.sumWith (M.blocks.find? (0, 0)) ((Mat.zeros 1 (M.width 0)).gram (Mat.zeros 1 (M.width 0))))
  rw [if_pos rfl] at hsome
  cases hsome.symm.trans hfind

/-- **A rejected factor leaves the matrix as it was** exactly if the last block is one wide, or
there is no block before it. -/
theorem addTo_keeps_iff (M₀ : BlockMatrix α) :
    (∀ (M : BlockMatrix α) (f : LinearFactor α) (slots : SlotTable) (e : Fault),
      M.widths = M₀.widths → (f.addTo slots M).2 = .error e → (f.addTo slots M).1.blocks = M.blocks) ↔
      M₀.count ≤ 1 ∨ M₀.widths.getLast? = some 1 := by
  constructor
  · intro h
    by_contra hno
    obtain ⟨hcount, hlast⟩ := not_or.mp hno
    have hlast' := mt (BlockMatrix.width_lastSlot (by omega)).mp hlast
    obtain ⟨e, he, hb⟩ := addTo_blank (M := BlockMatrix.ofWidths M₀.widths M₀.widths_pos)
      (not_le.mp hcount) hlast' rfl
    exact hb (h _ _ _ e rfl he)
  · intro h M f slots e hM he
    rcases addTo_rejected he with hk | ⟨hlast, g, t, rest, -, hg, hl, -⟩
    · rw [hk]
    · exfalso
      have hcount : M.count = M₀.count := congrArg List.length hM
      have ht : t ∈ g.placed slots := List.mem_mergeSort.mp (hl ▸ List.mem_cons_self ..)
      obtain ⟨h0, hlt, -⟩ := bounds_of_mem_placed hg ht
      unfold BlockMatrix.lastSlot at hlt
      rcases h with h | h
      · omega
      · exact hlast ((BlockMatrix.width_lastSlot (by omega)).mpr (hM ▸ h))

/-- The columns of the unit matrix, each for an unknown of its own. -/
def unitPair : LinearFactor ℚ where
  kind := .pair
  terms := ⟨[(.number 0, Mat.ofFn 2 1 fun i _ => if i = 0 then 1 else 0),
    (.number 1, Mat.ofFn 2 1 fun i _ => if i = 1 then 1 else 0)], by decide⟩
  rhs := Vec.ofFn 2 fun _ => 1
  model := none
  rows_eq := by decide
  model_rows := by decide
  fits := by decide

/-- Two blocks are written before the pair is rejected, where the last block is two wide. -/
theorem addTo_unitPair :
    ∃ M M' : BlockMatrix ℚ, BlockMatrix.ofCounts [.whole 1, .whole 1, .whole 2] false = .ok M ∧
      unitPair.addTo (.ordering [.number 0, .number 1]) M = (M', .error (.blockShape 0 2 [1, 2] [1, 1])) ∧
      M.blocks.keys = [] ∧ M'.blocks.keys = [(0, 0), (0, 1)] := by
  refine ⟨BlockMatrix.ofWidths [1, 1, 2] (by decide),
    (unitPair.addTo (.ordering [.number 0, .number 1]) (BlockMatrix.ofWidths [1, 1, 2] (by decide))).1,
    rfl, Prod.ext rfl ?_, rfl, ?_⟩
  · decide +kernel
  · decide +kernel

end LinearFactor
end BundleAdjustment
