import BundleAdjustment.Proofs.Linear.Assembly
import BundleAdjustment.Proofs.Linear.SlotTables
import BundleAdjustment.Proofs.Linear.Spans

/-!
One ordering, as slots and as spans.

An ordering gives its keys their positions as slots of a matrix, and consecutive spans of a flat
buffer. If the same widths are given to both, the span of a key is where its block begins in the
matrix (`layout_of_accumulate`).
-/
namespace BundleAdjustment

namespace Layout

theorem extend_eq {l : Layout} {key : Key} {count : Count} {n : Int} (hkey : key ∉ l.spans.keys)
    (hn : count.truncate = .ok n) :
    l.extend key count = .ok ⟨l.spans.insert key (l.size, n), l.size + n⟩ := by
  rw [extend, Table.contains, Table.find?_eq_none_iff.mpr hkey, hn]
  rfl

theorem foldlM_extend {pairs : List (Key × Count)} {given : List Int} {l : Layout}
    (hd : (pairs.map Prod.fst).Nodup) (hfresh : ∀ e ∈ pairs, e.1 ∉ l.spans.keys)
    (hg : pairs.map (fun e => e.2.truncate) = given.map .ok) :
    ∃ l', pairs.foldlM (fun l e => l.extend e.1 e.2) l = .ok l' ∧ l'.size = l.size + given.sum ∧
      (∀ i k n, (pairs.map Prod.fst)[i]? = some k → given[i]? = some n →
        l'.spans.find? k = some (l.size + (given.take i).sum, n)) ∧
      ∀ k, k ∉ pairs.map Prod.fst → l'.spans.find? k = l.spans.find? k := by
  induction pairs generalizing l given with
  | nil =>
    cases given with
    | nil =>
      refine ⟨l, rfl, (add_zero _).symm, ?_, fun _ _ => rfl⟩
      intro i k n hk
      cases hk
    | cons n rest => cases hg
  | cons e rest ih =>
    cases given with
    | nil => cases hg
    | cons n given =>
      simp only [List.map_cons, List.cons.injEq] at hg
      obtain ⟨hnot, hd⟩ := List.nodup_cons.mp hd
      have hkey := hfresh e (List.mem_cons_self ..)
      have hrest : ∀ u ∈ rest, u.1 ∉ (l.spans.insert e.1 (l.size, n)).keys := by
        intro u hu
        rw [Table.keys_insert, if_neg hkey, List.mem_append, not_or, List.mem_singleton]
        refine ⟨hfresh u (List.mem_cons_of_mem e hu), ?_⟩
        intro he
        exact hnot (he ▸ List.mem_map_of_mem hu)
      obtain ⟨l', hl', hsize, hpos, hother⟩ :=
        ih (l := ⟨l.spans.insert e.1 (l.size, n), l.size + n⟩) hd hrest hg.2
      refine ⟨l', ?_, ?_, ?_, ?_⟩
      · rw [List.foldlM_cons, extend_eq hkey hg.1]
        exact hl'
      · rw [hsize, List.sum_cons, add_assoc]
      · intro i k m hk hm
        cases i with
        | zero =>
          cases hk
          cases hm
          rw [hother e.1 hnot, Table.find?_insert, if_pos rfl]
          simp
        | succ i =>
          rw [hpos i k m hk hm, List.take_succ_cons, List.sum_cons, add_assoc]
      · intro k hk
        rw [List.map_cons, List.mem_cons, not_or] at hk
        rw [hother k hk.2, Table.find?_insert, if_neg fun he => hk.1 he.symm]

/-- Keys without repetition get consecutive spans of the widths. -/
theorem ofWidths_eq_ok {keys : List Key} {widths : List Count} {given : List Int} (hd : keys.Nodup)
    (hlen : keys.length = widths.length) (hg : widths.mapM Count.truncate = .ok given) :
    ∃ l, ofWidths keys widths = .ok l ∧ l.size = given.sum ∧
      ∀ i k n, keys[i]? = some k → given[i]? = some n → l.span k = .ok ((given.take i).sum, n) := by
  have hfst : (keys.zip widths).map Prod.fst = keys := List.map_fst_zip (le_of_eq hlen)
  have hsnd : (keys.zip widths).map Prod.snd = widths := List.map_snd_zip (le_of_eq hlen.symm)
  have hgiven : (keys.zip widths).map (fun e => e.2.truncate) = given.map .ok := by
    rw [← mapM_eq_ok.mp hg, ← hsnd, List.map_map, hsnd]
    rfl
  obtain ⟨l, hl, hsize, hpos, -⟩ := foldlM_extend (l := empty) (hfst.symm ▸ hd) (fun _ _ hk => nomatch hk) hgiven
  refine ⟨l, ?_, hsize.trans (zero_add _), ?_⟩
  · rw [ofWidths, if_pos hlen]
    exact hl
  · intro i k n hk hn
    have hfind := hpos i k n (hfst.symm ▸ hk) hn
    rw [span, hfind]
    show Except.ok ((0 : Int) + (given.take i).sum, n) = _
    rw [zero_add]

end Layout

namespace BlockMatrix

theorem total_map_toNat {given : List Int} (h : ∀ n ∈ given, 0 < n) :
    (total (given.map Int.toNat) : Int) = given.sum := by
  induction given with
  | nil => rfl
  | cons n rest ih =>
    have hn := h n (List.mem_cons_self ..)
    rw [List.map_cons, total_cons, List.sum_cons, ← ih fun m hm => h m (List.mem_cons_of_mem n hm)]
    omega

section Widths
variable {given : List Int} {i : Nat}

theorem getD_widths (h : i < given.length) :
    (given.map Int.toNat ++ [1]).getD i 0 = (given[i]).toNat := by
  rw [List.getD_eq_getElem?_getD, List.getElem?_append_left (by simpa using h)]
  simp [h]

/-- Blocks begin where the spans of the same widths do. -/
theorem total_take_widths (hpos : ∀ n ∈ given, 0 < n) (h : i ≤ given.length) :
    (total ((given.map Int.toNat ++ [1]).take i) : Int) = (given.take i).sum := by
  rw [List.take_append_of_le_length (by simpa using h), ← List.map_take]
  exact total_map_toNat fun n hn => hpos n (List.mem_of_mem_take hn)

end Widths

/-- A key has its places where its block is. -/
structure Agrees (l : Layout) (slots : SlotTable) (widths : List Nat) : Prop where
  length : total widths = l.length + 1
  last : widths.getLast? = some 1
  holds : ∀ key s, slots.slot key = .ok s →
    l.Holds key (widths.getD s.toNat 0) ∧ l.start key = slots.start widths key

theorem layout_of_accumulate {K : Type} [ExactScalar K] {factors : List (Option (LinearFactor K))}
    {keys : List Key} {counts : List Count} {M : BlockMatrix K}
    (h : accumulate factors (.ordering keys) counts = .ok M) :
    ∃ l, Layout.ofWidths keys counts = .ok l ∧ l.Proper ∧ Agrees l (.ordering keys) M.widths := by
  obtain ⟨table, M₀, ht, hlen, hM, hfold⟩ := accumulate_eq_ok h
  obtain ⟨given, hg, hpos, hw, hb⟩ := ofCounts_eq_ok hM
  have hlast : M₀.widths.getLast? = some 1 := by rw [hw, List.getLast?_concat]
  have hwidths : M.widths = given.map Int.toNat ++ [1] := ((full_foldFactors hlast hfold).1).trans hw
  obtain ⟨hd, -, hkeys, -, -⟩ := SlotTable.find?_number ht
  have hsize : keys.length = counts.length := by
    rw [hlen, Table.size, ← List.length_map Prod.fst]
    exact (congrArg List.length hkeys).symm
  have hgiven : given.length = keys.length := by
    have := congrArg List.length (mapM_eq_ok.mp hg)
    simp only [List.length_map] at this
    omega
  obtain ⟨l, hl, hls, hspan⟩ := Layout.ofWidths_eq_ok hd hsize hg
  have hproper : l.Proper := Layout.proper_ofWidths hl fun w hw n hn => by
    have hmem : (Except.ok n : Except Fault Int) ∈ given.map .ok :=
      mapM_eq_ok.mp hg ▸ List.mem_map.mpr ⟨w, hw, hn⟩
    obtain ⟨m, hm, he⟩ := List.mem_map.mp hmem
    cases he
    exact le_of_lt (hpos n hm)
  refine ⟨l, hl, hproper, ?_, ?_, ?_⟩
  · have hsum := total_map_toNat hpos
    rw [hwidths, total_append, Layout.length, hls, ← hsum]
    rfl
  · rw [hwidths, List.getLast?_concat]
  · intro key s hs
    obtain ⟨i, hi, hsi⟩ := SlotTable.slot_ordering hs
    have hlt : i < given.length := hgiven.symm ▸ (List.getElem?_eq_some_iff.mp hi).1
    have hnat : given[i] = ((given[i]).toNat : Int) :=
      (Int.toNat_of_nonneg (le_of_lt (hpos _ (List.getElem_mem hlt)))).symm
    have hkey := hspan i key given[i] hi (List.getElem?_eq_getElem hlt)
    rw [hnat] at hkey
    refine ⟨?_, ?_⟩
    · rw [hsi, Int.toNat_natCast, hwidths, getD_widths hlt]
      exact hproper.holds hkey
    · rw [hproper.start_eq hkey, SlotTable.start, SlotTable.slotOf_eq hs, hsi, Int.toNat_natCast,
        hwidths, ← total_take_widths hpos (le_of_lt hlt)]
      rfl

end BlockMatrix
end BundleAdjustment
