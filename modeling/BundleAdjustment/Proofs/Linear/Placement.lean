import BundleAdjustment.Proofs.Faults
import BundleAdjustment.Proofs.Linear.CrossWrites
import BundleAdjustment.Proofs.Linear.Deviations
import BundleAdjustment.Proofs.Linear.Writes

/-!
When a factor has a place in a matrix.

`PlacedIn` collects what the checks before the first write ask for: every key has a slot, no two
keys share one, each slot is that of an unknown, and each matrix has the width of its slot. The
checks pass exactly then (`plainWrites_eq_ok`), and the writes of a placed factor all succeed in
a matrix whose last block is one wide (`writeAll_crossWrites`). Before them a hard constraint is
refused, and so is a model that does not suit the rows; what is written otherwise has the factor's
keys and widths (`writes_cases`).
-/
namespace BundleAdjustment

/-- The slot of a key, zero for a key without one. -/
def SlotTable.slotOf (slots : SlotTable) (key : Key) : Int :=
  match slots.slot key with
  | .ok s => s
  | .error _ => 0

theorem SlotTable.slotOf_eq {slots : SlotTable} {key : Key} {s : Int} (h : slots.slot key = .ok s) :
    slots.slotOf key = s := by
  unfold slotOf
  rw [h]

namespace LinearFactor
variable {α : Type}

/-- The matrices of a factor with their slots. -/
def placed (f : LinearFactor α) (slots : SlotTable) : List (Int × Mat α) :=
  f.terms.entries.map fun e => (slots.slotOf e.1, e.2)

structure PlacedIn (f : LinearFactor α) (slots : SlotTable) (M : BlockMatrix α) : Prop where
  found : ∀ k ∈ f.keys, slots.slot k = .ok (slots.slotOf k)
  distinct : (f.keys.map slots.slotOf).Nodup
  unknowns : ∀ e ∈ f.terms.entries, 0 ≤ slots.slotOf e.1 ∧ slots.slotOf e.1 < M.lastSlot
  widths : ∀ e ∈ f.terms.entries, M.width (slots.slotOf e.1).toNat = e.2.cols

theorem map_find_eq_iff {slots : SlotTable} {table : Table Key Count} (ht : slots.toTable = .ok table)
    (keys : List Key) (places : List Int) :
    keys.map (SlotTable.find table) = places.map .ok ↔
      (∀ k ∈ keys, slots.slot k = .ok (slots.slotOf k)) ∧ places = keys.map slots.slotOf := by
  have hslot : ∀ k, slots.slot k = SlotTable.find table k := by
    intro k
    rw [SlotTable.slot, ht]
    rfl
  induction keys generalizing places with
  | nil => cases places <;> simp
  | cons k rest ih =>
    cases places with
    | nil => simp
    | cons s places =>
      simp only [List.map_cons, List.cons.injEq, ih, ← hslot, List.forall_mem_cons]
      constructor
      · rintro ⟨hs, hrest, rfl⟩
        rw [SlotTable.slotOf_eq hs]
        exact ⟨⟨hs, hrest⟩, rfl, rfl⟩
      · rintro ⟨⟨hs, hrest⟩, rfl, rfl⟩
        exact ⟨hs, hrest, rfl⟩

theorem checkSlots_eq_ok {M : BlockMatrix α} (slotOf : Key → Int) (entries : List (Key × Mat α)) :
    checkSlots M (entries.map fun e => slotOf e.1) (entries.map fun e => e.2.cols) = .ok () ↔
      (∀ e ∈ entries, 0 ≤ slotOf e.1 ∧ slotOf e.1 < M.lastSlot) ∧
        ∀ e ∈ entries, M.width (slotOf e.1).toNat = e.2.cols := by
  induction entries with
  | nil => simp [checkSlots]
  | cons e rest ih =>
    simp only [List.map_cons, checkSlots, List.forall_mem_cons]
    by_cases hs : 0 ≤ slotOf e.1 ∧ slotOf e.1 < M.lastSlot
    · by_cases hw : M.width (slotOf e.1).toNat = e.2.cols
      · simp only [hs, hw, and_self, if_true, true_and, ih]
      · simp [hs, hw]
    · simp [hs]

theorem checkPlacement_eq_ok {M : BlockMatrix α} {slots : List Int} {widths : List Nat} :
    checkPlacement M slots widths = .ok () ↔ slots.Nodup ∧ checkSlots M slots widths = .ok () := by
  unfold checkPlacement
  split <;> simp [*]

theorem checkPlacement_placed {f : LinearFactor α} {slots : SlotTable} {M : BlockMatrix α} :
    checkPlacement M (f.keys.map slots.slotOf) f.widths = .ok () ↔
      (f.keys.map slots.slotOf).Nodup ∧
        (∀ e ∈ f.terms.entries, 0 ≤ slots.slotOf e.1 ∧ slots.slotOf e.1 < M.lastSlot) ∧
        ∀ e ∈ f.terms.entries, M.width (slots.slotOf e.1).toNat = e.2.cols := by
  have hkeys : f.keys.map slots.slotOf = f.terms.entries.map fun e => slots.slotOf e.1 := by
    rw [keys, Table.keys, List.map_map]
    rfl
  rw [checkPlacement_eq_ok, ← checkSlots_eq_ok slots.slotOf f.terms.entries, hkeys]
  rfl

/-- A place is a matter of keys and widths. -/
theorem placedIn_congr {f g : LinearFactor α} (hkeys : g.keys = f.keys) (hwidths : g.widths = f.widths)
    (slots : SlotTable) (M : BlockMatrix α) : g.PlacedIn slots M ↔ f.PlacedIn slots M := by
  -- The checks are given the keys and the widths, and see nothing else of the factor.
  have hchecks : ∀ h : LinearFactor α, h.PlacedIn slots M ↔
      (∀ k ∈ h.keys, slots.slot k = .ok (slots.slotOf k)) ∧
        checkPlacement M (h.keys.map slots.slotOf) h.widths = .ok () := by
    intro h
    rw [checkPlacement_placed]
    constructor
    · rintro ⟨hfound, hd, hin, hw⟩
      exact ⟨hfound, hd, hin, hw⟩
    · rintro ⟨hfound, hd, hin, hw⟩
      exact ⟨hfound, hd, hin, hw⟩
  rw [hchecks, hchecks, hkeys, hwidths]

theorem zip_slots_blocks (f : LinearFactor α) (slots : SlotTable) :
    (f.keys.map slots.slotOf).zip f.blocks = f.placed slots := by
  rw [keys, Table.keys, blocks, List.map_map, List.zip_map']
  rfl

theorem exists_entry {f : LinearFactor α} (hne : f.isEmpty = false) : ∃ e, e ∈ f.terms.entries := by
  cases hl : f.terms.entries with
  | nil => simp [isEmpty, hl] at hne
  | cons e rest => exact ⟨e, List.mem_cons_self ..⟩

/-- A key that has a slot is found in a table. -/
theorem toTable_of_found {f : LinearFactor α} {slots : SlotTable} (hne : f.isEmpty = false)
    (h : ∀ k ∈ f.keys, slots.slot k = .ok (slots.slotOf k)) : ∃ table, slots.toTable = .ok table := by
  obtain ⟨e, he⟩ := exists_entry hne
  obtain ⟨table, ht, -⟩ := bind_eq_ok.mp (h e.1 (List.mem_map_of_mem he))
  exact ⟨table, ht⟩

theorem map_fst_placed (f : LinearFactor α) (slots : SlotTable) :
    (f.placed slots).map Prod.fst = f.keys.map slots.slotOf := by
  simp [placed, keys, Table.keys, Function.comp_def]

theorem rows_of_mem_placed {f : LinearFactor α} {slots : SlotTable} {t : Int × Mat α}
    (h : t ∈ f.placed slots) : t.2.rows = f.rhs.size := by
  obtain ⟨e, he, rfl⟩ := List.mem_map.mp h
  exact f.rows_eq e he

theorem bounds_of_mem_placed {f : LinearFactor α} {slots : SlotTable} {M : BlockMatrix α}
    (hf : f.PlacedIn slots M) {t : Int × Mat α} (ht : t ∈ f.placed slots) :
    0 ≤ t.1 ∧ t.1 < M.lastSlot ∧ t.2.cols = M.width t.1.toNat := by
  obtain ⟨e, he, rfl⟩ := List.mem_map.mp ht
  exact ⟨(hf.unknowns e he).1, (hf.unknowns e he).2, (hf.widths e he).symm⟩

variable [Scalar α]

/-- Factors of every kind write the same list of products. -/
theorem kindWrites_eq (f : LinearFactor α) (slots : SlotTable) (M : BlockMatrix α) :
    (match f.kind, f.placed slots with
      | .pair, [first, second] => (pure (pairWrites f.rhs M.lastSlot first second) : Except Fault _)
      | _, _ => pure (gramWrites f.rhs M.lastSlot (f.placed slots))) =
        .ok (crossWrites (inOrder f.rhs M.lastSlot (f.placed slots))) := by
  rw [← gramWrites_eq fun t ht => rows_of_mem_placed ht]
  split
  · rename_i first second _ hp
    rw [hp, pairWrites_eq]
    rfl
  · rfl

/-- The checks pass exactly for a factor that has a place, and what it then writes is one list of
products, whatever its kind. -/
theorem plainWrites_eq_ok {f : LinearFactor α} {slots : SlotTable} {M : BlockMatrix α}
    {ws : List (BlockMatrix.Write α)} (hne : f.isEmpty = false) :
    f.plainWrites slots M = .ok ws ↔
      f.PlacedIn slots M ∧ ws = crossWrites (inOrder f.rhs M.lastSlot (f.placed slots)) := by
  have hwrites := kindWrites_eq f slots M
  unfold plainWrites
  simp only [bind_eq_ok, mapM_eq_ok]
  constructor
  · rintro ⟨table, ht, places, hp, _, hc, h⟩
    obtain ⟨hfound, rfl⟩ := (map_find_eq_iff ht _ _).mp hp
    obtain ⟨hd, hv, hw⟩ := checkPlacement_placed.mp hc
    rw [zip_slots_blocks] at h
    have hws := hwrites.symm.trans h
    exact ⟨⟨hfound, hd, hv, hw⟩, by cases hws; rfl⟩
  · rintro ⟨hf, rfl⟩
    obtain ⟨table, ht⟩ := toTable_of_found hne hf.found
    refine ⟨table, ht, f.keys.map slots.slotOf, (map_find_eq_iff ht _ _).mpr ⟨hf.found, rfl⟩, (), ?_, ?_⟩
    · exact checkPlacement_placed.mpr ⟨hf.distinct, hf.unknowns, hf.widths⟩
    · rw [zip_slots_blocks]
      exact hwrites

/-- Products of matrices in ascending slots fit if every matrix has the width of its slot. -/
theorem fits_crossWrites {widths : List Nat} {l : List (Int × Mat α)}
    (hp : l.Pairwise fun t u => t.1 < u.1)
    (h : ∀ t ∈ l, 0 ≤ t.1 ∧ t.1.toNat < widths.length ∧ t.2.cols = widths.getD t.1.toNat 0) :
    ∀ w ∈ crossWrites l, w.Fits widths := by
  induction l with
  | nil => intro w hw; cases hw
  | cons t rest ih =>
    obtain ⟨hlt, hrest⟩ := List.pairwise_cons.mp hp
    obtain ⟨ht0, htn, htw⟩ := h t (List.mem_cons_self ..)
    intro w hw
    rcases List.mem_append.mp hw with hw | hw
    · obtain ⟨u, hu, rfl⟩ := List.mem_map.mp hw
      obtain ⟨hu0, hun, huw⟩ := h u hu
      have hle : t.1 ≤ u.1 := by
        rcases List.mem_cons.mp hu with rfl | hu
        · exact le_refl _
        · exact le_of_lt (hlt u hu)
      exact ⟨ht0, hle, by show t.1.toNat ≤ u.1.toNat; omega, hun, htw, huw⟩
    · exact ih hrest (fun u hu => h u (List.mem_cons_of_mem t hu)) w hw

theorem pairwise_placed {f : LinearFactor α} {slots : SlotTable} {M : BlockMatrix α}
    (hf : f.PlacedIn slots M) :
    (inOrder f.rhs M.lastSlot (f.placed slots)).Pairwise fun t u => t.1 < u.1 := by
  refine pairwise_inOrder ?_ fun t ht => (bounds_of_mem_placed hf ht).2.1
  rw [map_fst_placed]
  exact hf.distinct

/-- A placed factor is written as a whole into a matrix whose last block is one wide. -/
theorem writeAll_crossWrites {f : LinearFactor α} {slots : SlotTable} {M : BlockMatrix α}
    (hf : f.PlacedIn slots M) (hlast : M.width M.lastSlot.toNat = 1) :
    (M.writeAll (crossWrites (inOrder f.rhs M.lastSlot (f.placed slots)))).2 = .ok () := by
  refine BlockMatrix.writeAll_eq_ok_iff.mpr (fits_crossWrites (pairwise_placed hf) ?_)
  intro t ht
  rcases List.mem_append.mp ht with ht | ht
  · obtain ⟨h0, hl, hw⟩ := bounds_of_mem_placed hf (List.mem_mergeSort.mp ht)
    have hcount : t.1 < M.count := lt_trans hl (by unfold BlockMatrix.lastSlot; omega)
    exact ⟨h0, by show t.1.toNat < M.count; omega, hw⟩
  · rw [List.mem_singleton.mp ht]
    have hpos : 0 < M.width M.lastSlot.toNat := by omega
    have hcount : M.lastSlot.toNat < M.count := by
      by_contra hge
      have hge' : M.widths.length ≤ M.lastSlot.toNat := not_lt.mp hge
      simp [BlockMatrix.width, List.getD_eq_getElem?_getD, List.getElem?_eq_none hge'] at hpos
    refine ⟨?_, hcount, hlast.symm⟩
    show 0 ≤ M.lastSlot
    unfold BlockMatrix.lastSlot
    omega

/-- `g` is what is written for `f`: the factor itself if its model is known to change nothing,
and otherwise the factor with its weighting folded in. -/
def FoldsTo (f g : LinearFactor α) : Prop :=
  Noise.needsWhitening f.model = false ∧ g = f ∨ f.whiten = .ok g

omit [Scalar α] in
theorem isEmpty_eq_of_keys {f g : LinearFactor α} (h : g.keys = f.keys) : g.isEmpty = f.isEmpty := by
  have hl : g.terms.entries.length = f.terms.entries.length := by
    simpa [keys, Table.keys] using congrArg List.length h
  unfold isEmpty
  cases hg : g.terms.entries <;> cases hf : f.terms.entries <;> simp [hg, hf] at hl ⊢

theorem FoldsTo.keys_eq {f g : LinearFactor α} (h : f.FoldsTo g) : g.keys = f.keys := by
  rcases h with ⟨_, rfl⟩ | h
  · rfl
  · exact keys_of_whiten h

theorem FoldsTo.isEmpty_eq {f g : LinearFactor α} (h : f.FoldsTo g) : g.isEmpty = f.isEmpty :=
  isEmpty_eq_of_keys h.keys_eq

/-- A factor that is not refused writes nothing or has a place. -/
theorem writes_eq_ok {f : LinearFactor α} {slots : SlotTable} {M : BlockMatrix α}
    {ws : List (BlockMatrix.Write α)} (h : f.writes slots M = .ok ws) :
    f.isEmpty = true ∧ ws = [] ∨
      f.isEmpty = false ∧ ∃ g, f.FoldsTo g ∧ g.PlacedIn slots M ∧
        ws = crossWrites (inOrder g.rhs M.lastSlot (g.placed slots)) := by
  unfold writes at h
  cases hne : f.isEmpty with
  | true =>
    refine .inl ⟨rfl, ?_⟩
    simp only [hne, if_true] at h
    exact (pure_eq_ok.mp h).symm
  | false =>
    refine .inr ⟨rfl, ?_⟩
    rw [hne, if_neg Bool.false_ne_true] at h
    cases hn : Noise.needsWhitening f.model with
    | false =>
      rw [hn, if_neg Bool.false_ne_true] at h
      exact ⟨f, .inl ⟨hn, rfl⟩, (plainWrites_eq_ok hne).mp h⟩
    | true =>
      rw [hn, if_pos rfl] at h
      cases hc : f.model.elim false Noise.isConstrained with
      | true =>
        rw [hc] at h
        cases h
      | false =>
        rw [hc] at h
        obtain ⟨g, hg, hw⟩ := bind_eq_ok.mp h
        have hfold : f.FoldsTo g := .inr hg
        exact ⟨g, hfold, (plainWrites_eq_ok (hfold.isEmpty_eq.trans hne)).mp hw⟩

/-! ### Folding in -/

theorem elim_isConstrained {f : LinearFactor α} :
    f.model.elim false Noise.isConstrained = false ↔ ∀ m, f.model = some m → m.isConstrained = false := by
  cases f.model with
  | none =>
    constructor
    · intro _ m hm
      cases hm
    · intro _
      rfl
  | some m =>
    constructor
    · intro h m' hm'
      cases hm'
      exact h
    · intro h
      exact h m rfl

/-- A hard constraint is refused before anything else is looked at. -/
theorem writes_of_constrained {f : LinearFactor α} (slots : SlotTable) (M : BlockMatrix α)
    (hne : f.isEmpty = false) {m : Noise α} (hm : f.model = some m) (hc : m.isConstrained = true) :
    f.writes slots M = .error (.constrainedUpdate f.kind.name) := by
  have hn : Noise.needsWhitening f.model = true := by
    rw [hm]
    cases m with
    | constrained s w => rfl
    | _ => cases hc
  have hhard : f.model.elim false Noise.isConstrained = true := by
    rw [hm]
    exact hc
  rw [writes, hne, hn, hhard]
  rfl

/-- What is written for a factor with terms, or why nothing is, before its place is looked at. -/
theorem writes_cases {f : LinearFactor α} (slots : SlotTable) (M : BlockMatrix α) (hne : f.isEmpty = false) :
    (∃ m, f.model = some m ∧ m.isConstrained = true) ∧
        f.writes slots M = .error (.constrainedUpdate f.kind.name) ∨
      ¬ Suits f.model f.rows ∧ f.writes slots M = .error .shapeMismatch ∨
      (∀ m, f.model = some m → m.isConstrained = false) ∧ Suits f.model f.rows ∧
        ∃ g : LinearFactor α, g.keys = f.keys ∧ g.widths = f.widths ∧ g.isEmpty = false ∧
          f.writes slots M = g.plainWrites slots M := by
  by_cases hhard : ∃ m, f.model = some m ∧ m.isConstrained = true
  · obtain ⟨m, hm, hc⟩ := hhard
    exact .inl ⟨⟨m, hm, hc⟩, writes_of_constrained slots M hne hm hc⟩
  · have hfree : ∀ m, f.model = some m → m.isConstrained = false := by
      intro m hm
      by_contra hc
      exact hhard ⟨m, hm, by simpa using hc⟩
    have hc := elim_isConstrained.mpr hfree
    cases hn : Noise.needsWhitening f.model with
    | false =>
      have hone : OnePerRow f.model f.rows := onePerRow_of_not_needsWhitening f.model_rows hn
      refine .inr (.inr ⟨hfree, .inr hone, f, rfl, rfl, hne, ?_⟩)
      rw [writes, hne, hn]
      rfl
    | true =>
      have hfold : f.writes slots M = f.whiten >>= fun g => g.plainWrites slots M := by
        rw [writes, hne, hn, hc]
        rfl
      by_cases hsuits : Suits f.model f.rows
      · obtain ⟨g, hg, hkeys, hwidths⟩ := exists_whiten hsuits hc
        refine .inr (.inr ⟨hfree, hsuits, g, hkeys, hwidths, ?_, ?_⟩)
        · exact (isEmpty_eq_of_keys hkeys).trans hne
        · rw [hfold, hg, ok_bind]
      · refine .inr (.inl ⟨hsuits, ?_⟩)
        rw [hfold, whiten_of_not_suits hsuits]
        rfl

/-- A factor is folded in if what is written for it has a place. -/
theorem addTo_of_plainWrites {f g : LinearFactor α} {slots : SlotTable} {M : BlockMatrix α}
    (hw : f.writes slots M = g.plainWrites slots M) (hne : g.isEmpty = false) (hg : g.PlacedIn slots M)
    (hlast : M.width M.lastSlot.toNat = 1) : (f.addTo slots M).2 = .ok () := by
  rw [addTo, hw, (plainWrites_eq_ok hne).mpr ⟨hg, rfl⟩]
  exact writeAll_crossWrites hg hlast

/-- A factor is folded in if it has a place, no hard constraint, and a whitened form. -/
theorem addTo_eq_ok {f g : LinearFactor α} {slots : SlotTable} {M : BlockMatrix α}
    (hf : f.PlacedIn slots M) (hlast : M.width M.lastSlot.toNat = 1)
    (hc : f.model.elim false Noise.isConstrained = false) (hg : f.whiten = .ok g) :
    (f.addTo slots M).2 = .ok () := by
  cases hne : f.isEmpty with
  | true =>
    rw [addTo, writes, hne]
    rfl
  | false =>
    rcases writes_cases slots M hne with ⟨⟨m, hm, hhard⟩, -⟩ | ⟨hno, -⟩ | ⟨-, -, g', hkeys, hwidths, hne', hw⟩
    · rw [elim_isConstrained.mp hc m hm] at hhard
      cases hhard
    · rw [whiten_of_not_suits hno] at hg
      cases hg
    · exact addTo_of_plainWrites hw hne' ((placedIn_congr hkeys hwidths slots M).mpr hf) hlast

/-- What is folded in has a slot for each of its keys. -/
theorem slot_of_addTo {f : LinearFactor α} {slots : SlotTable} {M : BlockMatrix α} (hne : f.isEmpty = false)
    (h : (f.addTo slots M).2 = .ok ()) {key : Key} (hkey : key ∈ f.keys) :
    slots.slot key = .ok (slots.slotOf key) := by
  unfold addTo at h
  cases hw : f.writes slots M with
  | error e =>
    rw [hw] at h
    cases h
  | ok ws =>
    rcases writes_eq_ok hw with ⟨he, -⟩ | ⟨-, g, hfold, hg, -⟩
    · rw [hne] at he
      cases he
    · exact hg.found key (hfold.keys_eq.symm ▸ hkey)

theorem widths_addTo (f : LinearFactor α) (slots : SlotTable) (M : BlockMatrix α) :
    (f.addTo slots M).1.widths = M.widths := by
  unfold addTo
  cases f.writes slots M with
  | error e => rfl
  | ok ws => exact BlockMatrix.widths_writeAll M ws

/-! ### What the widths decide -/

omit [Scalar α] in
theorem lastSlot_congr {M N : BlockMatrix α} (h : N.widths = M.widths) : N.lastSlot = M.lastSlot := by
  rw [BlockMatrix.lastSlot, BlockMatrix.count, h, BlockMatrix.lastSlot, BlockMatrix.count]

omit [Scalar α] in
theorem checkSlots_congr {M N : BlockMatrix α} (h : N.widths = M.widths) (slots : List Int) (widths : List Nat) :
    checkSlots N slots widths = checkSlots M slots widths := by
  have hwidth : ∀ i, N.width i = M.width i := fun i => by rw [BlockMatrix.width, h, BlockMatrix.width]
  induction slots generalizing widths with
  | nil => rfl
  | cons s slots ih =>
    cases widths with
    | nil => rfl
    | cons w widths =>
      unfold checkSlots
      rw [hwidth, lastSlot_congr h, ih]

/-- What a factor writes, or why it is refused, does not depend on the contents. -/
theorem writes_congr {M N : BlockMatrix α} (h : N.widths = M.widths) (f : LinearFactor α) (slots : SlotTable) :
    f.writes slots N = f.writes slots M := by
  have hplain : ∀ g : LinearFactor α, g.plainWrites slots N = g.plainWrites slots M := by
    intro g
    unfold plainWrites checkPlacement
    simp only [checkSlots_congr h, lastSlot_congr h]
  unfold writes
  simp only [hplain]

theorem addTo_ok_congr {M N : BlockMatrix α} (h : N.widths = M.widths) (f : LinearFactor α) (slots : SlotTable) :
    (f.addTo slots N).2 = .ok () ↔ (f.addTo slots M).2 = .ok () := by
  unfold addTo
  rw [writes_congr h]
  cases f.writes slots M with
  | error e => exact Iff.rfl
  | ok ws => rw [BlockMatrix.writeAll_eq_ok_iff, BlockMatrix.writeAll_eq_ok_iff, h]

end LinearFactor

/-- A list of factors is folded in exactly if each of them is. -/
theorem BlockMatrix.foldFactors_eq_ok_iff {α : Type} [Scalar α] {slots : SlotTable} {M : BlockMatrix α}
    {factors : List (LinearFactor α)} :
    (∃ M', M.foldFactors slots factors = .ok M') ↔ ∀ f ∈ factors, (f.addTo slots M).2 = .ok () := by
  induction factors generalizing M with
  | nil => exact ⟨fun _ _ hf => (nomatch hf), fun _ => ⟨M, rfl⟩⟩
  | cons f rest ih =>
    rw [List.forall_mem_cons]
    unfold foldFactors
    have hw := LinearFactor.widths_addTo f slots M
    rcases ha : f.addTo slots M with ⟨M₁, r⟩
    rw [ha] at hw
    cases r with
    | error e => exact ⟨fun ⟨_, h⟩ => (nomatch h), fun ⟨h, _⟩ => (nomatch h)⟩
    | ok u => simp only [ih, true_and, LinearFactor.addTo_ok_congr hw]

/-- A list of factors fails at one of them, which finds the widths as they were. -/
theorem BlockMatrix.foldFactors_eq_error {α : Type} [Scalar α] {slots : SlotTable} {M : BlockMatrix α}
    {factors : List (LinearFactor α)} {e : Fault} (h : M.foldFactors slots factors = .error e) :
    ∃ f ∈ factors, ∃ M' : BlockMatrix α, M'.widths = M.widths ∧ (f.addTo slots M').2 = .error e := by
  induction factors generalizing M with
  | nil => cases h
  | cons f rest ih =>
    unfold foldFactors at h
    have hw := LinearFactor.widths_addTo f slots M
    rcases ha : f.addTo slots M with ⟨M₁, r⟩
    rw [ha] at h hw
    cases r with
    | error e' =>
      cases h
      exact ⟨f, List.mem_cons_self .., M, rfl, by rw [ha]⟩
    | ok u =>
      obtain ⟨f', hf', M', hM', he⟩ := ih h
      exact ⟨f', List.mem_cons_of_mem f hf', M', hM'.trans hw, he⟩

end BundleAdjustment
