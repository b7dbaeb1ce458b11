import BundleAdjustment.Proofs.Linear.Ordering

/-!
What assembly accepts.

Whether factors are assembled depends on their keys, their widths and their models, not on any
number in them. A factor `FitsIn` a slot table and widths if it has no hard constraint, its model
suits its rows, and its keys have slots of their own of the right widths; otherwise its fault names
what is amiss (`Misfit`). Factors are `Assemblable` if each of them fits and the widths are those of
the table's keys. Assembly accepts exactly these (`accumulate_accepts`), so their order does not
matter, and no write is ever refused. None of this needs a law of the numbers.
-/
namespace BundleAdjustment

/-! ### Matrices of zeros -/

namespace BlockMatrix
variable {α : Type}

theorem truncate_whole (dims : List Int) : (dims.map Count.whole).mapM Count.truncate = .ok dims := by
  rw [mapM_eq_ok, List.map_map]
  rfl

/-- Positive widths are those of a matrix with one more of one. -/
theorem exists_ofCounts {dims : List Int} (h : ∀ d ∈ dims, 0 < d) :
    ∃ M : BlockMatrix α, ofCounts (dims.map .whole) true = .ok M ∧ M.widths = dims.map Int.toNat ++ [1] := by
  have hpos : ∀ w ∈ dims ++ [1], 0 < w := by
    intro w hw
    rcases List.mem_append.mp hw with hw | hw
    · exact h w hw
    · rw [List.mem_singleton.mp hw]
      exact Int.one_pos
  refine ⟨ofWidths ((dims ++ [1]).map Int.toNat) fun w hw => ?_, ?_, ?_⟩
  · obtain ⟨n, hn, rfl⟩ := List.mem_map.mp hw
    have := hpos n hn
    omega
  · rw [ofCounts, truncate_whole, ok_bind]
    simp only [if_true]
    rw [dif_pos hpos]
    rfl
  · show (dims ++ [1]).map Int.toNat = _
    rw [List.map_append]
    rfl

theorem ofCounts_eq_error {dims : List Int} {e : Fault}
    (h : (ofCounts (dims.map .whole) true : Except Fault (BlockMatrix α)) = .error e) :
    (∃ d ∈ dims, d ≤ 0) ∧ e = .blockWidths (dims ++ [1]) := by
  have hneg : ∃ d ∈ dims, d ≤ 0 := by
    by_contra hno
    obtain ⟨M, hM, -⟩ := exists_ofCounts (α := α) fun d hd => not_le.mp fun hle => hno ⟨d, hd, hle⟩
    cases hM.symm.trans h
  refine ⟨hneg, ?_⟩
  rw [ofCounts, truncate_whole, ok_bind] at h
  simp only [if_true] at h
  split at h
  · cases h
  · cases h
    rfl

/-- A matrix with these widths and one more of one, for the keys of a table. -/
structure MadeFor (M : BlockMatrix α) (slots : SlotTable) (dims : List Int) : Prop where
  whole : slots.Whole
  distinct : slots.keys.Nodup
  positive : ∀ d ∈ dims, 0 < d
  widths : M.widths = dims.map Int.toNat ++ [1]

theorem madeFor_of_ofCounts {M : BlockMatrix α} {slots : SlotTable} {dims : List Int} (hs : slots.Whole)
    (hd : slots.keys.Nodup) (h : ofCounts (dims.map .whole) true = .ok M) : M.MadeFor slots dims := by
  obtain ⟨given, hgiven, hpos, hw, -⟩ := ofCounts_eq_ok h
  cases hgiven.symm.trans (truncate_whole dims)
  exact ⟨hs, hd, hpos, hw⟩

theorem MadeFor.lastSlot {M : BlockMatrix α} {slots : SlotTable} {dims : List Int} (h : M.MadeFor slots dims) :
    M.lastSlot = dims.length := by
  rw [BlockMatrix.lastSlot, count, h.widths, List.length_append, List.length_map, List.length_singleton]
  omega

theorem MadeFor.last {M : BlockMatrix α} {slots : SlotTable} {dims : List Int} (h : M.MadeFor slots dims) :
    M.width M.lastSlot.toNat = 1 := by
  obtain ⟨l, hl, -, hw, -⟩ := last_of_getLast? (M := M) (by rw [h.widths, List.getLast?_concat])
  rw [hl, Int.toNat_natCast, hw]

theorem MadeFor.of_widths {M N : BlockMatrix α} {slots : SlotTable} {dims : List Int} (h : M.MadeFor slots dims)
    (hw : N.widths = M.widths) : N.MadeFor slots dims :=
  ⟨h.whole, h.distinct, h.positive, hw.trans h.widths⟩

theorem MadeFor.width_eq {M : BlockMatrix α} {slots : SlotTable} {dims : List Int} (h : M.MadeFor slots dims)
    {i : Nat} (hi : i < dims.length) : dims[i]? = some (M.width i : Int) := by
  have hpos := h.positive _ (List.getElem_mem hi)
  rw [width, h.widths, getD_widths hi, Int.toNat_of_nonneg (le_of_lt hpos), List.getElem?_eq_getElem hi]

end BlockMatrix

/-! ### One factor -/

namespace LinearFactor
variable {α : Type}

/-- The keys with the widths of their matrices. -/
def columns (f : LinearFactor α) : List (Key × Nat) := f.terms.entries.map fun e => (e.1, e.2.cols)

theorem columns_eq_zip (f : LinearFactor α) : f.columns = f.keys.zip f.widths :=
  (List.zip_map' ..).symm

theorem map_fst_columns (f : LinearFactor α) : f.columns.map Prod.fst = f.keys := by
  rw [columns, List.map_map]
  rfl

/-- The keys of a factor have slots of their own among those of these widths, and its matrices have the
widths of their slots. -/
structure HasPlace (f : LinearFactor α) (slots : SlotTable) (dims : List Int) : Prop where
  known : ∀ key ∈ f.keys, key ∈ slots.keys
  apart : (f.keys.map slots.slotOf).Nodup
  inside : ∀ key ∈ f.keys, 0 ≤ slots.slotOf key ∧ slots.slotOf key < dims.length
  widths : ∀ c ∈ f.columns, dims[(slots.slotOf c.1).toNat]? = some (c.2 : Int)

section Fitting
variable [Scalar α]

/-- A factor has a place and may be folded in. -/
structure FitsIn (f : LinearFactor α) (slots : SlotTable) (dims : List Int) : Prop where
  unconstrained : ∀ m, f.model = some m → m.isConstrained = false
  suits : Suits f.model f.rows
  place : f.HasPlace slots dims

/-- Why a factor is refused: each fault names what is amiss. -/
inductive Misfit (f : LinearFactor α) (slots : SlotTable) (dims : List Int) : Fault → Prop where
  | constrained {m : Noise α} (hm : f.model = some m) (hc : m.isConstrained = true) :
      Misfit f slots dims (.constrainedUpdate f.kind.name)
  | unsuited (h : ¬ Suits f.model f.rows) : Misfit f slots dims .shapeMismatch
  | unknown {key : Key} (hkey : key ∈ f.keys) (h : key ∉ slots.keys) : Misfit f slots dims (.slotMissing key)
  | shared (h : ¬ (f.keys.map slots.slotOf).Nodup) :
      Misfit f slots dims (.slotsShared (f.keys.map slots.slotOf))
  | outside {key : Key} (hkey : key ∈ f.keys)
      (h : ¬ (0 ≤ slots.slotOf key ∧ slots.slotOf key < dims.length)) :
      Misfit f slots dims (.slotRange (slots.slotOf key))
  | width {key : Key} {w d : Nat} (hkey : (key, w) ∈ f.columns)
      (hd : dims[(slots.slotOf key).toNat]? = some (d : Int)) (hw : d ≠ w) :
      Misfit f slots dims (.slotWidth (slots.slotOf key) d w)

end Fitting

/-! ### The place of a factor -/

theorem checkSlots_eq_error {M : BlockMatrix α} {slots : List Int} {widths : List Nat} {e : Fault}
    (h : checkSlots M slots widths = .error e) :
    ∃ c ∈ slots.zip widths, ¬ (0 ≤ c.1 ∧ c.1 < M.lastSlot) ∧ e = .slotRange c.1 ∨
      (0 ≤ c.1 ∧ c.1 < M.lastSlot) ∧ M.width c.1.toNat ≠ c.2 ∧ e = .slotWidth c.1 (M.width c.1.toNat) c.2 := by
  induction slots generalizing widths with
  | nil => cases h
  | cons s slots ih =>
    cases widths with
    | nil => cases h
    | cons w widths =>
      unfold checkSlots at h
      split at h
      · rename_i hs
        split at h
        · obtain ⟨c, hc, hcase⟩ := ih h
          exact ⟨c, List.mem_cons_of_mem _ hc, hcase⟩
        · rename_i hw
          cases h
          exact ⟨(s, w), List.mem_cons_self .., .inr ⟨hs, hw, rfl⟩⟩
      · rename_i hs
        cases h
        exact ⟨(s, w), List.mem_cons_self .., .inl ⟨hs, rfl⟩⟩

section Placing
variable {f : LinearFactor α} {slots : SlotTable} {dims : List Int} {M : BlockMatrix α}

theorem placedIn_iff (h : M.MadeFor slots dims) : f.PlacedIn slots M ↔ f.HasPlace slots dims := by
  have hwidth : ∀ {key : Key}, 0 ≤ slots.slotOf key ∧ slots.slotOf key < dims.length →
      dims[(slots.slotOf key).toNat]? = some (M.width (slots.slotOf key).toNat : Int) := by
    intro key hin
    exact h.width_eq (by omega)
  constructor
  · intro hf
    have hin : ∀ key ∈ f.keys, 0 ≤ slots.slotOf key ∧ slots.slotOf key < dims.length := by
      intro key hkey
      obtain ⟨e, he, rfl⟩ := List.mem_map.mp hkey
      rw [← h.lastSlot]
      exact hf.unknowns e he
    refine ⟨?_, hf.distinct, hin, ?_⟩
    · intro key hkey
      by_contra hno
      have hslot := SlotTable.slot_of_not_mem h.distinct hno
      cases hslot.symm.trans (hf.found key hkey)
    · intro c hc
      obtain ⟨e, he, rfl⟩ := List.mem_map.mp hc
      rw [hwidth (hin e.1 (List.mem_map_of_mem he)), hf.widths e he]
  · rintro ⟨hknown, hapart, hin, hw⟩
    refine ⟨?_, hapart, ?_, ?_⟩
    · intro key hkey
      exact SlotTable.slot_of_mem h.whole h.distinct (hknown key hkey)
    · intro e he
      rw [h.lastSlot]
      exact hin e.1 (List.mem_map_of_mem he)
    · intro e he
      have hcol := hw (e.1, e.2.cols) (List.mem_map_of_mem he)
      rw [hwidth (hin e.1 (List.mem_map_of_mem he))] at hcol
      simpa using hcol

variable [Scalar α]

theorem misfit_of_checkPlacement {e : Fault} (h : M.MadeFor slots dims)
    (he : checkPlacement M (f.keys.map slots.slotOf) f.widths = .error e) : f.Misfit slots dims e := by
  unfold checkPlacement at he
  split at he
  · obtain ⟨c, hc, hcase⟩ := checkSlots_eq_error he
    rw [List.zip_map_left, List.mem_map, ← columns_eq_zip] at hc
    obtain ⟨⟨key, w⟩, hcol, rfl⟩ := hc
    have hkey : key ∈ f.keys := by
      rw [← map_fst_columns]
      exact List.mem_map_of_mem hcol
    rw [h.lastSlot] at hcase
    rcases hcase with ⟨hout, rfl⟩ | ⟨hin, hw, rfl⟩
    · exact .outside hkey hout
    · have hin : 0 ≤ slots.slotOf key ∧ slots.slotOf key < dims.length := hin
      exact .width hcol (h.width_eq (by omega)) hw
  · rename_i hshared
    cases he
    exact .shared hshared

/-- What is written as it stands is refused for its keys and widths alone, so a whitened factor is
refused for those of the factor that it comes from. -/
theorem misfit_of_plainWrites {g : LinearFactor α} {e : Fault} (h : M.MadeFor slots dims)
    (hkeys : g.keys = f.keys) (hwidths : g.widths = f.widths) (he : g.plainWrites slots M = .error e) :
    f.Misfit slots dims e := by
  obtain ⟨table, ht⟩ := SlotTable.exists_toTable h.distinct
  have hfind : ∀ key, SlotTable.find table key = slots.slot key := by
    intro key
    rw [SlotTable.slot, ht, ok_bind]
  rw [plainWrites, ht, ok_bind, hkeys, hwidths] at he
  rcases bind_eq_error.mp he with he | ⟨places, hplaces, he⟩
  · obtain ⟨key, hkey, he⟩ := mapM_eq_error he
    rw [hfind] at he
    by_cases hmem : key ∈ slots.keys
    · cases (SlotTable.slot_of_mem h.whole h.distinct hmem).symm.trans he
    · cases (SlotTable.slot_of_not_mem h.distinct hmem).symm.trans he
      exact .unknown hkey hmem
  · obtain ⟨-, rfl⟩ := (map_find_eq_iff ht _ _).mp (mapM_eq_ok.mp hplaces)
    rcases bind_eq_error.mp he with he | ⟨u, -, he⟩
    · exact misfit_of_checkPlacement h he
    · -- Once the place is checked, either kind of writes is a list.
      dsimp only at he
      split at he
      · cases he
      · cases he

/-- A factor with terms is folded in exactly if it fits. -/
theorem addTo_eq_ok_iff (h : M.MadeFor slots dims) :
    (f.addTo slots M).2 = .ok () ↔ (f.isEmpty = false → f.FitsIn slots dims) := by
  cases hne : f.isEmpty with
  | true =>
    rw [addTo, writes, hne]
    constructor
    · intro _ h
      cases h
    · intro _
      rfl
  | false =>
    rcases writes_cases slots M hne with
      ⟨⟨m, hm, hc⟩, hw⟩ | ⟨hno, hw⟩ | ⟨hfree, hsuits, g, hkeys, hwidths, hg, hw⟩
    · rw [addTo, hw]
      constructor
      · intro hok
        cases hok
      · intro hf
        rw [(hf rfl).unconstrained m hm] at hc
        cases hc
    · rw [addTo, hw]
      constructor
      · intro hok
        cases hok
      · intro hf
        exact absurd (hf rfl).suits hno
    · have hplace := (placedIn_congr hkeys hwidths slots M).trans (placedIn_iff h)
      constructor
      · intro hok _
        cases hp : g.plainWrites slots M with
        | error e =>
          rw [addTo, hw, hp] at hok
          cases hok
        | ok ws => exact ⟨hfree, hsuits, hplace.mp ((plainWrites_eq_ok hg).mp hp).1⟩
      · intro hf
        exact addTo_of_plainWrites hw hg (hplace.mpr (hf rfl).place) h.last

/-- The writes of a factor are all made, where the last block is one wide. -/
theorem writeAll_of_writes {ws : List (BlockMatrix.Write α)} (hlast : M.width M.lastSlot.toNat = 1)
    (h : f.writes slots M = .ok ws) : (M.writeAll ws).2 = .ok () := by
  rcases writes_eq_ok h with ⟨-, rfl⟩ | ⟨-, g, -, hg, rfl⟩
  · rfl
  · exact writeAll_crossWrites hg hlast

/-- A factor is refused for a reason. -/
theorem misfit_of_addTo {e : Fault} (h : M.MadeFor slots dims) (he : (f.addTo slots M).2 = .error e) :
    f.isEmpty = false ∧ f.Misfit slots dims e := by
  have hwrites : f.writes slots M = .error e := by
    unfold addTo at he
    cases hw : f.writes slots M with
    | error e' =>
      rw [hw] at he
      cases he
      rfl
    | ok ws =>
      rw [hw] at he
      cases (writeAll_of_writes h.last hw).symm.trans he
  cases hne : f.isEmpty with
  | true =>
    rw [writes, hne] at hwrites
    cases hwrites
  | false =>
    refine ⟨rfl, ?_⟩
    rcases writes_cases slots M hne with ⟨⟨m, hm, hc⟩, hw⟩ | ⟨hno, hw⟩ | ⟨-, -, g, hkeys, hwidths, -, hw⟩
    · cases hw.symm.trans hwrites
      exact .constrained hm hc
    · cases hw.symm.trans hwrites
      exact .unsuited hno
    · exact misfit_of_plainWrites h hkeys hwidths (hw.symm.trans hwrites)

/-- A table does as well as what it was made from. -/
theorem addTo_mapping {table : Table Key Count} (ht : slots.toTable = .ok table) (f : LinearFactor α)
    (M : BlockMatrix α) : f.addTo (.mapping table) M = f.addTo slots M := by
  have htable : (SlotTable.mapping table).toTable = slots.toTable := ht.symm
  unfold addTo writes plainWrites
  rw [htable]

end Placing

end LinearFactor

/-! ### Many factors -/

namespace BlockMatrix
open LinearFactor
variable {α : Type} [Scalar α]

/-- Factors of which each that is there, and has terms, fits the widths of a table's keys. -/
structure Assemblable (factors : List (Option (LinearFactor α))) (slots : SlotTable) (dims : List Int) :
    Prop where
  distinct : slots.keys.Nodup
  lengths : dims.length = slots.keys.length
  positive : ∀ d ∈ dims, 0 < d
  fits : ∀ f, some f ∈ factors → f.isEmpty = false → f.FitsIn slots dims

theorem Assemblable.perm {factors given : List (Option (LinearFactor α))} {slots : SlotTable} {dims : List Int}
    (h : Assemblable factors slots dims) (hperm : factors.Perm given) : Assemblable given slots dims :=
  ⟨h.distinct, h.lengths, h.positive, fun f hf => h.fits f (hperm.mem_iff.mpr hf)⟩

/-- Why factors are not assembled. -/
inductive Refused (factors : List (Option (LinearFactor α))) (slots : SlotTable) (dims : List Int) :
    Fault → Prop where
  | duplicate {key : Key} (h : List.Duplicate key slots.keys) : Refused factors slots dims (.slotDuplicate key)
  | lengths (h : dims.length ≠ slots.keys.length) : Refused factors slots dims .slotWidths
  | widths {d : Int} (hd : d ∈ dims) (h : d ≤ 0) : Refused factors slots dims (.blockWidths (dims ++ [1]))
  | misfit {f : LinearFactor α} {e : Fault} (hf : some f ∈ factors) (hne : f.isEmpty = false)
      (h : f.Misfit slots dims e) : Refused factors slots dims e

section Assembling
variable {slots : SlotTable} {factors : List (Option (LinearFactor α))} {dims : List Int}

theorem accumulate_of_assemblable (hs : slots.Whole) (h : Assemblable factors slots dims) :
    ∃ M, accumulate factors slots (dims.map .whole) = .ok M := by
  obtain ⟨table, ht⟩ := SlotTable.exists_toTable h.distinct
  obtain ⟨M, hM, -⟩ := exists_ofCounts (α := α) h.positive
  have hmade := madeFor_of_ofCounts hs h.distinct hM
  have hsize : (dims.map Count.whole).length = table.size := by
    rw [List.length_map, SlotTable.size_toTable ht, h.lengths]
  rw [accumulate, ht, ok_bind, if_pos hsize, hM, ok_bind, foldFactors_eq_ok_iff]
  intro f hf
  obtain ⟨_, hmem, rfl⟩ := List.mem_filterMap.mp hf
  rw [addTo_mapping ht]
  exact (addTo_eq_ok_iff hmade).mpr (h.fits f hmem)

theorem assemblable_of_accumulate (hs : slots.Whole) {M : BlockMatrix α}
    (h : accumulate factors slots (dims.map .whole) = .ok M) : Assemblable factors slots dims := by
  obtain ⟨table, M₀, ht, hsize, hM₀, hfold⟩ := accumulate_eq_ok h
  have hd := (SlotTable.keys_toTable ht).1
  have hmade := madeFor_of_ofCounts hs hd hM₀
  rw [List.length_map, SlotTable.size_toTable ht] at hsize
  refine ⟨hd, hsize, hmade.positive, ?_⟩
  intro f hf
  have hok := foldFactors_eq_ok_iff.mp ⟨M, hfold⟩ f (List.mem_filterMap.mpr ⟨some f, hf, rfl⟩)
  rw [addTo_mapping ht] at hok
  exact (addTo_eq_ok_iff hmade).mp hok

theorem refused_of_accumulate (hs : slots.Whole) {e : Fault}
    (h : accumulate factors slots (dims.map .whole) = .error e) : Refused factors slots dims e := by
  rcases bind_eq_error.mp h with he | ⟨table, ht, h⟩
  · obtain ⟨key, hkey, rfl⟩ := SlotTable.toTable_eq_error he
    exact .duplicate hkey
  · split at h
    · rcases bind_eq_error.mp h with he | ⟨M, hM, hfold⟩
      · obtain ⟨⟨d, hd, hle⟩, rfl⟩ := ofCounts_eq_error he
        exact .widths hd hle
      · have hmade := madeFor_of_ofCounts hs (SlotTable.keys_toTable ht).1 hM
        obtain ⟨f, hf, M', hM', he⟩ := foldFactors_eq_error hfold
        obtain ⟨_, hmem, rfl⟩ := List.mem_filterMap.mp hf
        rw [addTo_mapping ht] at he
        obtain ⟨hne, hmisfit⟩ := misfit_of_addTo (hmade.of_widths hM') he
        exact .misfit hmem hne hmisfit
    · rename_i hsize
      cases h
      rw [List.length_map, SlotTable.size_toTable ht] at hsize
      exact .lengths hsize

/-- **Assembly accepts exactly the factors that fit**: there is a matrix if and only if the table gives
no key two slots, there is a positive width for each of its keys, and each factor that is there, and
has terms, fits these. Every refusal says what is amiss, no write of an accepted factor is refused, and
the order of the factors does not matter. -/
theorem accumulate_accepts (hs : slots.Whole) (factors : List (Option (LinearFactor α))) (dims : List Int) :
    ((∃ M, accumulate factors slots (dims.map .whole) = .ok M) ↔ Assemblable factors slots dims) ∧
      (∀ e, accumulate factors slots (dims.map .whole) = .error e → Refused factors slots dims e) ∧
      (∀ (f : LinearFactor α) (M : BlockMatrix α) (ws : List (Write α)), M.widths.getLast? = some 1 →
        f.writes slots M = .ok ws → (M.writeAll ws).2 = .ok ()) ∧
      ∀ given : List (Option (LinearFactor α)), given.Perm factors →
        ((∃ M, accumulate given slots (dims.map .whole) = .ok M) ↔
          ∃ M, accumulate factors slots (dims.map .whole) = .ok M) := by
  have haccepts : ∀ given : List (Option (LinearFactor α)),
      (∃ M, accumulate given slots (dims.map .whole) = .ok M) ↔ Assemblable given slots dims := by
    intro given
    constructor
    · rintro ⟨M, h⟩
      exact assemblable_of_accumulate hs h
    · exact accumulate_of_assemblable hs
  refine ⟨haccepts factors, fun e => refused_of_accumulate hs, ?_, ?_⟩
  · intro f M ws hlast h
    obtain ⟨l, hl, -, hw, -⟩ := last_of_getLast? hlast
    exact writeAll_of_writes (by rw [hl, Int.toNat_natCast, hw]) h
  · intro given hperm
    rw [haccepts, haccepts]
    constructor
    · exact fun h => h.perm hperm
    · exact fun h => h.perm hperm.symm

end Assembling

/-- The slots are stated in the order opposite to that of the keys. -/
def crossedSlots : SlotTable :=
  .mapping ⟨[(.number 0, .whole 1), (.number 1, .whole 0)], by decide⟩

/-- The pair is assembled, with or without a missing factor before it. -/
theorem accumulate_accepts_tiltedPair :
    crossedSlots.Whole ∧ Assemblable [none, some (tiltedPair ℚ)] crossedSlots [1, 2] ∧
      ∃ M, accumulate [some (tiltedPair ℚ), none] crossedSlots [.whole 1, .whole 2] = .ok M := by
  have hs : crossedSlots.Whole := by
    intro e he
    simp only [List.mem_cons, List.not_mem_nil, or_false] at he
    rcases he with rfl | rfl
    · exact ⟨1, rfl⟩
    · exact ⟨0, rfl⟩
  have hok : (do
      let _ ← accumulate [none, some (tiltedPair ℚ)] crossedSlots [.whole 1, .whole 2]
      return ()).toOption = some () := by decide +kernel
  obtain ⟨M, hM, -⟩ := bind_eq_ok.mp (toOption_eq_some.mp hok)
  obtain ⟨haccepts, -, -, hperm⟩ := accumulate_accepts hs [none, some (tiltedPair ℚ)] [1, 2]
  exact ⟨hs, haccepts.mp ⟨M, hM⟩, (hperm _ (List.Perm.swap ..)).mpr ⟨M, hM⟩⟩

/-- Two rows with four deviations, all of them one. -/
def fourDeviations : LinearFactor ℚ where
  kind := .general
  terms := ⟨[(.number 0, Mat.ofFn 2 1 fun _ _ => 1)], List.nodup_singleton _⟩
  rhs := Vec.ofFn 2 fun _ => 1
  model := some (.constrained ⟨[2, 2], #[1, 1, 1, 1], rfl⟩ 1000)
  rows_eq := by decide
  model_rows := fun m hm => by
    cases hm
    rfl
  fits := trivial

/-- A factor without hard constraints is refused where it has a place, because its model does not suit
its rows. -/
theorem accumulate_fourDeviations :
    (SlotTable.ordering [.number 0]).keys.Nodup ∧
      (∀ m, fourDeviations.model = some m → m.isConstrained = false) ∧
      fourDeviations.HasPlace (.ordering [.number 0]) [1] ∧
      accumulate [some fourDeviations] (.ordering [.number 0]) [.whole 1] = .error .shapeMismatch := by
  refine ⟨List.nodup_singleton _, ?_, ⟨?_, List.nodup_singleton _, ?_, ?_⟩, rfl⟩
  · intro m hm
    cases hm
    decide +kernel
  · exact fun key hkey => hkey
  · intro key hkey
    rw [List.mem_singleton.mp hkey]
    decide +kernel
  · intro c hc
    rw [List.mem_singleton.mp hc]
    rfl

end BlockMatrix
end BundleAdjustment
