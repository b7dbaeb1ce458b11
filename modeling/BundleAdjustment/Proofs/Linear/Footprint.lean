import BundleAdjustment.Proofs.Linear.Acceptance

/-!
Where the blocks of a factor lie.

A factor touches the places of its products: for any two of its keys that of the lower slot before the
higher one, for each key that of its slot in the last block column, and the corner (`Touches`). Folding a
factor in stores these blocks and changes no other, whatever comes of it (`find?_addTo`, `mem_keys_addTo`).
An assembled matrix therefore stores what its factors touch, and nothing fills in (`stored_accumulate`).
Places depend on keys and slots alone, so whitening does not move them.
-/
namespace BundleAdjustment

/-! ### Writes -/

namespace BlockMatrix
variable {α : Type} [Scalar α]

/-- The place of the block that a write is for. -/
def Write.place (w : Write α) : Nat × Nat := (w.row.toNat, w.col.toNat)

/-- Writes change no block but their own, also where one of them is refused. -/
theorem find?_writeAll {M : BlockMatrix α} {ws : List (Write α)} {p : Nat × Nat} (h : ∀ w ∈ ws, w.place ≠ p) :
    (M.writeAll ws).1.blocks.find? p = M.blocks.find? p := by
  induction ws generalizing M with
  | nil => rfl
  | cons w rest ih =>
    obtain ⟨hw, hrest⟩ := List.forall_mem_cons.mp h
    by_cases hfits : w.Fits M.widths
    · rw [writeAll_cons_of_fits hfits, ih hrest, find?_write]
      exact if_neg hw
    · obtain ⟨e, he⟩ := writeAll_cons_of_not_fits rest hfits
      rw [he]

theorem mem_keys_write {M : BlockMatrix α} {i j : Nat} {A : Mat α} (h : WellPlaced M.widths ((i, j), A))
    {p : Nat × Nat} : p ∈ (M.write i j A h).blocks.keys ↔ p ∈ M.blocks.keys ∨ (i, j) = p := by
  show p ∈ (M.blocks.insert (i, j) _).keys ↔ _
  rw [Table.keys_insert]
  split
  · rename_i hmem
    refine ⟨.inl, fun hp => ?_⟩
    rcases hp with hp | rfl
    · exact hp
    · exact hmem
  · rw [List.mem_append, List.mem_singleton, eq_comm (a := p)]

/-- Writes that fit store their blocks. -/
theorem mem_keys_writeAll {M : BlockMatrix α} {ws : List (Write α)} (h : ∀ w ∈ ws, w.Fits M.widths)
    {p : Nat × Nat} :
    p ∈ (M.writeAll ws).1.blocks.keys ↔ p ∈ M.blocks.keys ∨ ∃ w ∈ ws, w.place = p := by
  induction ws generalizing M with
  | nil => simp [writeAll]
  | cons w rest ih =>
    obtain ⟨hw, hrest⟩ := List.forall_mem_cons.mp h
    rw [writeAll_cons_of_fits hw]
    rw [ih (by rw [widths_write]; exact hrest), mem_keys_write, or_assoc]
    simp [Write.place]

/-! ### Stored blocks -/

omit [Scalar α] in
theorem mem_stored {M : BlockMatrix α} {p : Nat × Nat} : p ∈ M.stored ↔ p ∈ M.blocks.keys := List.mem_mergeSort

omit [Scalar α] in
/-- The places of stored blocks are listed by row and then by column, each once. -/
theorem pairwise_stored (M : BlockMatrix α) :
    M.stored.Pairwise fun p q => p.1 < q.1 ∨ p.1 = q.1 ∧ p.2 < q.2 := by
  have hsorted : M.stored.Pairwise fun p q => (p.1 < q.1 || (p.1 == q.1 && p.2 ≤ q.2)) = true :=
    List.pairwise_mergeSort (fun p q r hpq hqr => by simp at *; omega) (fun p q => by simp; omega) M.blocks.keys
  have hdistinct : M.stored.Nodup := (List.mergeSort_perm _ _).nodup_iff.mpr M.blocks.nodup_keys
  refine hsorted.imp₂ (fun p q hle hne => ?_) hdistinct
  have hcols : p.1 = q.1 → p.2 ≠ q.2 := fun hrow hcol => hne (Prod.ext hrow hcol)
  simp at hle
  omega

omit [Scalar α] in
/-- A stored block is in the upper triangle and has the shape of its place. -/
theorem shape_stored {M : BlockMatrix α} {p : Nat × Nat} (h : p ∈ M.stored) :
    p.1 ≤ p.2 ∧ ∃ A, M.blocks.find? p = some A ∧ A.rows = M.width p.1 ∧ A.cols = M.width p.2 := by
  obtain ⟨A, hA⟩ := Option.ne_none_iff_exists'.mp (mt Table.find?_eq_none_iff.mp (not_not.mpr (mem_stored.mp h)))
  obtain ⟨hle, -, hrows, hcols⟩ := M.wellPlaced _ (Table.mem_of_find? hA)
  exact ⟨hle, A, hA, hrows, hcols⟩

theorem block_congr {M N : BlockMatrix α} (hw : N.widths = M.widths) {i j : Nat}
    (h : N.blocks.find? (min i j, max i j) = M.blocks.find? (min i j, max i j)) :
    N.block i j = M.block i j := by
  have hindex : ∀ k, N.index k = M.index k := fun k => by rw [index, index, count, count, hw]
  have hupper : N.upper (min i j) (max i j) = M.upper (min i j) (max i j) := by
    simp only [upper, h, width, hw]
  have hget : N.get i j = M.get i j := by
    unfold get
    by_cases hlow : j < i
    · rw [min_eq_right hlow.le, max_eq_left hlow.le] at hupper
      rw [if_pos hlow, if_pos hlow, hupper]
    · rw [min_eq_left (not_lt.mp hlow), max_eq_right (not_lt.mp hlow)] at hupper
      rw [if_neg hlow, if_neg hlow, hupper]
  rw [block_eq, block_eq, hindex, hindex, hget]

end BlockMatrix

/-! ### The places of one factor -/

namespace LinearFactor
variable {α : Type}

/-- The places of the products of a factor's matrices and its right-hand side, which stands in the last
block column. -/
inductive Touches (f : LinearFactor α) (slots : SlotTable) (last : Nat) : Nat × Nat → Prop where
  | keys {k l : Key} {s t : Nat} (hk : k ∈ f.keys) (hl : l ∈ f.keys) (hs : slots.slot k = .ok s)
      (ht : slots.slot l = .ok t) : Touches f slots last (min s t, max s t)
  | column {k : Key} {s : Nat} (hk : k ∈ f.keys) (hs : slots.slot k = .ok s) : Touches f slots last (s, last)
  | corner (hne : f.isEmpty = false) : Touches f slots last (last, last)

/-- Places are a matter of keys and of their slots. -/
theorem Touches.congr {f g : LinearFactor α} {slots slots' : SlotTable} {last : Nat} {p : Nat × Nat}
    (hkeys : g.keys = f.keys) (hslots : ∀ k, slots'.slot k = slots.slot k) (h : f.Touches slots last p) :
    g.Touches slots' last p := by
  cases h with
  | keys hk hl hs ht => exact .keys (hkeys ▸ hk) (hkeys ▸ hl) ((hslots _).trans hs) ((hslots _).trans ht)
  | column hk hs => exact .column (hkeys ▸ hk) ((hslots _).trans hs)
  | corner hne => exact .corner ((isEmpty_eq_of_keys hkeys).trans hne)

/-- A factor without keys touches nothing. -/
theorem not_touches {f : LinearFactor α} (hf : f.isEmpty = true) (slots : SlotTable) (last : Nat) (p : Nat × Nat) :
    ¬ f.Touches slots last p := by
  have hkeys : f.keys = [] := by
    rw [keys, Table.keys, List.isEmpty_iff.mp hf, List.map_nil]
  intro h
  cases h with
  | keys hk _ _ _ => rw [hkeys] at hk; cases hk
  | column hk _ => rw [hkeys] at hk; cases hk
  | corner hne => rw [hf] at hne; cases hne

/-- A touched place is in the last block column or in that of a key. -/
theorem Touches.column_eq {f : LinearFactor α} {slots : SlotTable} {last : Nat} {p : Nat × Nat}
    (h : f.Touches slots last p) : p.2 = last ∨ ∃ k ∈ f.keys, slots.slot k = .ok p.2 := by
  cases h with
  | @keys k l s t hk hl hs ht =>
    rcases le_total s t with hle | hle
    · exact .inr ⟨l, hl, by rw [max_eq_right hle, ht]⟩
    · exact .inr ⟨k, hk, by rw [max_eq_left hle, hs]⟩
  | column _ _ => exact .inl rfl
  | corner _ => exact .inl rfl

variable [Scalar α]

/-- In ascending slots the products are those of any two matrices of which the first is not the later. -/
theorem mem_crossWrites {l : List (Int × Mat α)} (h : l.Pairwise fun t u => t.1 < u.1)
    {w : BlockMatrix.Write α} :
    w ∈ crossWrites l ↔ ∃ t ∈ l, ∃ u ∈ l, t.1 ≤ u.1 ∧ w = ⟨t.1, u.1, t.2.gram u.2⟩ := by
  induction l with
  | nil => simp [crossWrites]
  | cons t rest ih =>
    obtain ⟨hlt, hrest⟩ := List.pairwise_cons.mp h
    rw [crossWrites, List.mem_append, ih hrest, List.mem_map]
    constructor
    · rintro (⟨u, hu, rfl⟩ | ⟨t', ht', u, hu, hle, rfl⟩)
      · refine ⟨t, List.mem_cons_self .., u, hu, ?_, rfl⟩
        rcases List.mem_cons.mp hu with rfl | hu
        · exact le_rfl
        · exact (hlt u hu).le
      · exact ⟨t', List.mem_cons_of_mem t ht', u, List.mem_cons_of_mem t hu, hle, rfl⟩
    · rintro ⟨t', ht', u, hu, hle, rfl⟩
      rcases List.mem_cons.mp ht' with rfl | hlater
      · exact .inl ⟨u, hu, rfl⟩
      · rcases List.mem_cons.mp hu with rfl | hu
        · exact absurd hle (not_le.mpr (hlt t' hlater))
        · exact .inr ⟨t', hlater, u, hu, hle, rfl⟩

theorem mem_inOrder {f : LinearFactor α} {slots : SlotTable} {last : Int} {t : Int × Mat α} :
    t ∈ inOrder f.rhs last (f.placed slots) ↔
      (∃ e ∈ f.terms.entries, (slots.slotOf e.1, e.2) = t) ∨ t = (last, Mat.ofColumn f.rhs) := by
  rw [(perm_inOrder _ _ _).mem_iff, List.mem_append, List.mem_singleton, placed, List.mem_map]

omit [Scalar α] in
/-- The slot of a placed factor's key is the number of a block row before the last. -/
theorem PlacedIn.exists_slot {f : LinearFactor α} {slots : SlotTable} {M : BlockMatrix α} (hf : f.PlacedIn slots M)
    {e : Key × Mat α} (he : e ∈ f.terms.entries) :
    ∃ s : Nat, slots.slotOf e.1 = s ∧ slots.slot e.1 = .ok s ∧ s < M.count - 1 := by
  obtain ⟨hpos, hlt⟩ := hf.unknowns e he
  obtain ⟨s, hs⟩ := Int.eq_ofNat_of_zero_le hpos
  have hfound := hf.found e.1 (List.mem_map_of_mem he)
  unfold BlockMatrix.lastSlot at hlt
  rw [hs] at hlt hfound
  exact ⟨s, hs, hfound, by omega⟩

omit [Scalar α] in
theorem PlacedIn.lastSlot_eq {f : LinearFactor α} {slots : SlotTable} {M : BlockMatrix α} (hf : f.PlacedIn slots M)
    (hne : f.isEmpty = false) : M.lastSlot = (M.count - 1 : Nat) := by
  obtain ⟨e, he⟩ := exists_entry hne
  obtain ⟨s, -, -, hlt⟩ := hf.exists_slot he
  unfold BlockMatrix.lastSlot
  omega

theorem touches_of_write {f : LinearFactor α} {slots : SlotTable} {M : BlockMatrix α} (hf : f.PlacedIn slots M)
    (hne : f.isEmpty = false) {w : BlockMatrix.Write α}
    (hw : w ∈ crossWrites (inOrder f.rhs M.lastSlot (f.placed slots))) : f.Touches slots (M.count - 1) w.place := by
  have hlast := hf.lastSlot_eq hne
  obtain ⟨t, ht, u, hu, hle, rfl⟩ := (mem_crossWrites (pairwise_placed hf)).mp hw
  show f.Touches slots (M.count - 1) (t.1.toNat, u.1.toNat)
  rcases mem_inOrder.mp ht with ⟨e, he, rfl⟩ | rfl
  · obtain ⟨s, hs, hslot, -⟩ := hf.exists_slot he
    rcases mem_inOrder.mp hu with ⟨e', he', rfl⟩ | rfl
    · obtain ⟨s', hs', hslot', -⟩ := hf.exists_slot he'
      have htouch : f.Touches slots (M.count - 1) (min s s', max s s') :=
        .keys (List.mem_map_of_mem he) (List.mem_map_of_mem he') hslot hslot'
      simp only [hs, hs'] at hle ⊢
      rwa [min_eq_left (Int.ofNat_le.mp hle), max_eq_right (Int.ofNat_le.mp hle)] at htouch
    · simp only [hs, hlast]
      exact .column (List.mem_map_of_mem he) hslot
  · -- The right-hand side stands last, so it is crossed with itself only.
    rcases mem_inOrder.mp hu with ⟨e', he', rfl⟩ | rfl
    · exact absurd hle (not_le.mpr (hf.unknowns e' he').2)
    · simp only [hlast]
      exact .corner hne

theorem exists_write_of_touches {f : LinearFactor α} {slots : SlotTable} {M : BlockMatrix α}
    (hf : f.PlacedIn slots M) (hne : f.isEmpty = false) {p : Nat × Nat} (h : f.Touches slots (M.count - 1) p) :
    ∃ w ∈ crossWrites (inOrder f.rhs M.lastSlot (f.placed slots)), w.place = p := by
  have hwrite : ∀ {t u}, t ∈ inOrder f.rhs M.lastSlot (f.placed slots) →
      u ∈ inOrder f.rhs M.lastSlot (f.placed slots) → t.1 ≤ u.1 →
      ∃ w ∈ crossWrites (inOrder f.rhs M.lastSlot (f.placed slots)), w.place = (t.1.toNat, u.1.toNat) :=
    fun ht hu hle => ⟨_, (mem_crossWrites (pairwise_placed hf)).mpr ⟨_, ht, _, hu, hle, rfl⟩, rfl⟩
  have hterm : ∀ {e}, e ∈ f.terms.entries → ∀ {s : Nat}, slots.slot e.1 = .ok s →
      ((s : Int), e.2) ∈ inOrder f.rhs M.lastSlot (f.placed slots) := fun {e} he s hs =>
    mem_inOrder.mpr (.inl ⟨e, he, by rw [SlotTable.slotOf_eq hs]⟩)
  have hrhs : (((M.count - 1 : Nat) : Int), Mat.ofColumn f.rhs) ∈ inOrder f.rhs M.lastSlot (f.placed slots) :=
    mem_inOrder.mpr (.inr (by rw [hf.lastSlot_eq hne]))
  cases h with
  | @keys _ _ s t hk hl hs ht =>
    obtain ⟨e, he, rfl⟩ := List.mem_map.mp hk
    obtain ⟨e', he', rfl⟩ := List.mem_map.mp hl
    rcases le_total s t with hle | hle
    · rw [min_eq_left hle, max_eq_right hle]
      exact hwrite (hterm he hs) (hterm he' ht) (Int.ofNat_le.mpr hle)
    · rw [min_eq_right hle, max_eq_left hle]
      exact hwrite (hterm he' ht) (hterm he hs) (Int.ofNat_le.mpr hle)
  | column hk hs =>
    obtain ⟨e, he, rfl⟩ := List.mem_map.mp hk
    refine hwrite (hterm he hs) hrhs ?_
    obtain ⟨s, -, hslot, hlt⟩ := hf.exists_slot he
    cases hs.symm.trans hslot
    exact Int.ofNat_le.mpr hlt.le
  | corner _ => exact hwrite hrhs hrhs le_rfl

/-- A placed factor writes to the places that it touches. -/
theorem place_crossWrites {f : LinearFactor α} {slots : SlotTable} {M : BlockMatrix α} (hf : f.PlacedIn slots M)
    (hne : f.isEmpty = false) {p : Nat × Nat} :
    (∃ w ∈ crossWrites (inOrder f.rhs M.lastSlot (f.placed slots)), w.place = p) ↔
      f.Touches slots (M.count - 1) p := by
  constructor
  · rintro ⟨w, hw, rfl⟩
    exact touches_of_write hf hne hw
  · exact exists_write_of_touches hf hne

/-! ### Folding in -/

/-- What is written for a factor stands where the factor does. -/
theorem place_writes {f : LinearFactor α} {slots : SlotTable} {M : BlockMatrix α} {ws : List (BlockMatrix.Write α)}
    (h : f.writes slots M = .ok ws) {p : Nat × Nat} :
    (∃ w ∈ ws, w.place = p) ↔ f.Touches slots (M.count - 1) p := by
  rcases writes_eq_ok h with ⟨hempty, rfl⟩ | ⟨hne, g, hfold, hg, rfl⟩
  · constructor
    · rintro ⟨w, hw, -⟩
      cases hw
    · exact fun ht => (not_touches hempty slots _ p ht).elim
  · have hkeys : g.keys = f.keys := hfold.keys_eq
    rw [place_crossWrites hg (hfold.isEmpty_eq.trans hne)]
    constructor
    · exact Touches.congr hkeys.symm fun _ => rfl
    · exact Touches.congr hkeys fun _ => rfl

/-- Folding a factor in changes no block that the factor does not touch, whatever comes of it. -/
theorem find?_addTo {f : LinearFactor α} {slots : SlotTable} {M : BlockMatrix α} {p : Nat × Nat}
    (h : ¬ f.Touches slots (M.count - 1) p) : (f.addTo slots M).1.blocks.find? p = M.blocks.find? p := by
  unfold addTo
  cases hw : f.writes slots M with
  | error e => rfl
  | ok ws => exact BlockMatrix.find?_writeAll fun w hmem hp => h ((place_writes hw).mp ⟨w, hmem, hp⟩)

/-- A factor that is folded in leaves a block at every place that it touches. -/
theorem mem_keys_addTo {f : LinearFactor α} {slots : SlotTable} {M : BlockMatrix α}
    (h : (f.addTo slots M).2 = .ok ()) {p : Nat × Nat} :
    p ∈ (f.addTo slots M).1.blocks.keys ↔ p ∈ M.blocks.keys ∨ f.Touches slots (M.count - 1) p := by
  unfold addTo at h ⊢
  cases hw : f.writes slots M with
  | error e =>
    rw [hw] at h
    cases h
  | ok ws =>
    rw [hw] at h
    rw [← place_writes hw]
    exact BlockMatrix.mem_keys_writeAll (BlockMatrix.writeAll_eq_ok_iff.mp h)

end LinearFactor

namespace BlockMatrix
open LinearFactor
variable {α : Type} [Scalar α]

theorem mem_keys_foldFactors {slots : SlotTable} {M M' : BlockMatrix α} {factors : List (LinearFactor α)}
    (h : M.foldFactors slots factors = .ok M') : M'.widths = M.widths ∧ ∀ p,
      p ∈ M'.blocks.keys ↔ p ∈ M.blocks.keys ∨ ∃ f ∈ factors, f.Touches slots (M.count - 1) p := by
  induction factors generalizing M with
  | nil =>
    cases h
    exact ⟨rfl, fun p => by simp⟩
  | cons f rest ih =>
    unfold foldFactors at h
    have hwidths := widths_addTo f slots M
    have hkeys : ∀ p, (f.addTo slots M).2 = .ok () →
        (p ∈ (f.addTo slots M).1.blocks.keys ↔ p ∈ M.blocks.keys ∨ f.Touches slots (M.count - 1) p) :=
      fun p h => mem_keys_addTo h
    rcases ha : f.addTo slots M with ⟨M₁, r⟩
    rw [ha] at h hwidths hkeys
    cases r with
    | error e => cases h
    | ok u =>
      obtain ⟨hw, hrest⟩ := ih h
      have hcount : M₁.count = M.count := congrArg List.length hwidths
      refine ⟨hw.trans hwidths, fun p => ?_⟩
      rw [hrest, hkeys p rfl, hcount]
      simp only [List.mem_cons, exists_eq_or_imp, or_assoc]

/-- **No block fills in.** An assembled matrix stores, in ascending order, the blocks that its factors touch and
no others, each in the upper triangle and of the widths of its place; and folding any factor into any matrix
leaves every block that this factor does not touch as it was, also where the factor is refused. -/
theorem stored_accumulate (slots : SlotTable) :
    (∀ (factors : List (Option (LinearFactor α))) (counts : List Count) (M : BlockMatrix α),
      accumulate factors slots counts = .ok M →
      (M.stored.Pairwise fun p q => p.1 < q.1 ∨ p.1 = q.1 ∧ p.2 < q.2) ∧
      (∀ p, p ∈ M.stored ↔ ∃ f, some f ∈ factors ∧ f.Touches slots counts.length p) ∧
      (∃ dims : List Int, counts.mapM Count.truncate = .ok dims ∧ M.widths = dims.map Int.toNat ++ [1]) ∧
      ∀ p ∈ M.stored, p.1 ≤ p.2 ∧
        ∃ A, M.blocks.find? p = some A ∧ A.rows = M.width p.1 ∧ A.cols = M.width p.2) ∧
    ∀ (f : LinearFactor α) (M : BlockMatrix α) (i j : Nat),
      ¬ f.Touches slots (M.count - 1) (min i j, max i j) →
      (f.addTo slots M).1.blocks.find? (min i j, max i j) = M.blocks.find? (min i j, max i j) ∧
      (f.addTo slots M).1.block i j = M.block i j := by
  refine ⟨fun factors counts M h => ?_, fun f M i j h => ?_⟩
  · obtain ⟨table, M₀, ht, -, hM₀, hfold⟩ := accumulate_eq_ok h
    obtain ⟨dims, hdims, -, hwidths, hempty⟩ := ofCounts_eq_ok hM₀
    obtain ⟨hw, hkeys⟩ := mem_keys_foldFactors hfold
    have hcount : M₀.count - 1 = counts.length := by
      have hlength := congrArg List.length (mapM_eq_ok.mp hdims)
      rw [List.length_map, List.length_map] at hlength
      rw [count, hwidths, List.length_append, List.length_map, hlength]
      rfl
    refine ⟨pairwise_stored M, fun p => ?_, ⟨dims, hdims, hw.trans hwidths⟩, fun p => shape_stored⟩
    rw [mem_stored, hkeys, hempty, hcount]
    constructor
    · rintro (hp | ⟨f, hf, hp⟩)
      · cases hp
      · obtain ⟨_, hmem, rfl⟩ := List.mem_filterMap.mp hf
        exact ⟨f, hmem, hp.congr rfl fun k => (slot_mapping ht k).symm⟩
    · rintro ⟨f, hf, hp⟩
      exact .inr ⟨f, List.mem_filterMap.mpr ⟨some f, hf, rfl⟩, hp.congr rfl (slot_mapping ht)⟩
  · have hfind := find?_addTo h
    exact ⟨hfind, block_congr (widths_addTo f slots M) hfind⟩

/-- The slots of the pair, with that of an unknown between them. -/
def gappedSlots : SlotTable :=
  .mapping ⟨[(.number 0, .whole 2), (.number 1, .whole 0), (.number 2, .whole 1)], by decide⟩

/-- The pair stores nothing in the row of the unknown between its own, and changes nothing there. -/
theorem stored_accumulate_tiltedPair : ∃ M : BlockMatrix ℚ,
    accumulate [some (tiltedPair ℚ), none] gappedSlots [.whole 1, .whole 5, .whole 2] = .ok M ∧
    (0, 2) ∈ M.stored ∧ (1, 1) ∉ M.stored ∧ ((tiltedPair ℚ).addTo gappedSlots M).1.block 1 1 = M.block 1 1 := by
  have hok : (do
      let M ← accumulate [some (tiltedPair ℚ), none] gappedSlots [.whole 1, .whole 5, .whole 2]
      return decide (M.count - 1 = 3)).toOption = some true := by decide +kernel
  obtain ⟨M, hM, hcount⟩ := bind_eq_ok.mp (toOption_eq_some.mp hok)
  have hcount : M.count - 1 = 3 := of_decide_eq_true (pure_eq_ok.mp hcount)
  have hfree : ¬ (tiltedPair ℚ).Touches gappedSlots 3 (1, 1) := by
    intro h
    rcases h.column_eq with hlast | ⟨k, hk, hs⟩
    · cases hlast
    · have hk : k ∈ [Key.number 1, Key.number 0] := hk
      simp only [List.mem_cons, List.not_mem_nil, or_false] at hk
      rcases hk with rfl | rfl <;> cases hs
  obtain ⟨hstored, hframe⟩ := stored_accumulate (α := ℚ) gappedSlots
  obtain ⟨-, hplaces, -⟩ := hstored _ _ M hM
  refine ⟨M, hM, (hplaces _).mpr ⟨tiltedPair ℚ, List.mem_cons_self .., ?_⟩, fun hmem => ?_, ?_⟩
  · exact .keys (k := .number 0) (l := .number 1) (s := 2) (t := 0) (by decide) (by decide) rfl rfl
  · obtain ⟨f, hf, htouch⟩ := (hplaces _).mp hmem
    simp only [List.mem_cons, Option.some.injEq, reduceCtorEq, List.not_mem_nil, or_false] at hf
    exact hfree (hf ▸ htouch)
  · exact (hframe (tiltedPair ℚ) M 1 1 (hcount.symm ▸ hfree)).2

end BlockMatrix
end BundleAdjustment
