import BundleAdjustment.Proofs.Linear.Placement
import Mathlib.Data.List.Duplicate

/-!
What a slot table knows.

The keys of a table are those that it was given, in their order (`find?_number`). An ordering makes a
table exactly if it repeats none of them, and its fault names a key that it repeats
(`toTable_eq_error`). In a table of whole numbers a key has a slot exactly if it is one of the keys
(`slot_of_mem`, `slot_of_not_mem`).
-/
namespace BundleAdjustment.SlotTable

/-! ### Orderings -/

theorem number_cons {key : Key} {rest : List Key} {t t' : Table Key Count} {next : Nat}
    (h : number t next (key :: rest) = .ok t') :
    key ∉ t.keys ∧ (t.insert key (.whole next)).keys = t.keys ++ [key] ∧
      number (t.insert key (.whole next)) (next + 1) rest = .ok t' := by
  unfold number at h
  split at h
  · cases h
  · rename_i hc
    have hnot : key ∉ t.keys := mt Table.contains_iff.mpr hc
    refine ⟨hnot, ?_, h⟩
    rw [Table.keys_insert, if_neg hnot]

theorem find?_number {keys : List Key} {t t' : Table Key Count} {next : Nat}
    (h : number t next keys = .ok t') :
    keys.Nodup ∧ (∀ k ∈ keys, k ∉ t.keys) ∧ t'.keys = t.keys ++ keys ∧
      (∀ (i : Nat) k, keys[i]? = some k → t'.find? k = some (.whole (next + i))) ∧
      ∀ k, k ∉ keys → t'.find? k = t.find? k := by
  induction keys generalizing t next with
  | nil =>
    cases h
    refine ⟨List.nodup_nil, ?_, (List.append_nil _).symm, ?_, fun _ _ => rfl⟩
    · intro k hk
      cases hk
    · intro i k hk
      cases hk
  | cons key rest ih =>
    obtain ⟨hnot, hkeys, h⟩ := number_cons h
    obtain ⟨hd, hfresh, hk', hpos, hother⟩ := ih h
    rw [hkeys] at hfresh hk'
    have hrest : key ∉ rest := fun hk => hfresh key hk (List.mem_append_right _ (List.mem_singleton_self _))
    refine ⟨List.nodup_cons.mpr ⟨hrest, hd⟩, ?_, ?_, ?_, ?_⟩
    · intro k hk
      rcases List.mem_cons.mp hk with rfl | hk
      · exact hnot
      · exact fun hkt => hfresh k hk (List.mem_append_left _ hkt)
    · rw [hk', List.append_assoc]
      rfl
    · intro i k hk
      cases i with
      | zero =>
        cases hk
        rw [hother key hrest, Table.find?_insert, if_pos rfl]
        simp
      | succ i =>
        rw [hpos i k hk]
        congr 2
        push_cast
        omega
    · intro k hk
      rw [List.mem_cons, not_or] at hk
      rw [hother k hk.2, Table.find?_insert, if_neg fun he => hk.1 he.symm]

/-- The slot of a key is its position in the ordering. -/
theorem slot_ordering {keys : List Key} {key : Key} {s : Int}
    (hs : slot (.ordering keys) key = .ok s) : ∃ i : Nat, keys[i]? = some key ∧ s = i := by
  obtain ⟨table, ht, hfind⟩ := bind_eq_ok.mp hs
  obtain ⟨-, -, -, hpos, hother⟩ := find?_number ht
  obtain ⟨i, hi⟩ : ∃ i : Nat, keys[i]? = some key := by
    by_contra hno
    have hnot : key ∉ keys := fun hk => hno (List.mem_iff_getElem?.mp hk)
    rw [find, hother key hnot] at hfind
    cases hfind
  rw [find, hpos i key hi] at hfind
  refine ⟨i, hi, ?_⟩
  cases hfind
  exact Int.zero_add _

/-! ### Keys of a table -/

def keys : SlotTable → List Key
  | ordering keys => keys
  | mapping slots => slots.keys

/-- The slots that are stated are whole numbers. -/
def Whole : SlotTable → Prop
  | ordering _ => True
  | mapping slots => ∀ e ∈ slots.entries, ∃ n, e.2 = .whole n

theorem keys_toTable {slots : SlotTable} {table : Table Key Count} (h : slots.toTable = .ok table) :
    slots.keys.Nodup ∧ table.keys = slots.keys := by
  cases slots with
  | ordering keys =>
    obtain ⟨hd, -, hkeys, -, -⟩ := find?_number h
    exact ⟨hd, hkeys⟩
  | mapping given =>
    cases h
    exact ⟨Table.nodup_keys table, rfl⟩

theorem exists_toTable {slots : SlotTable} (h : slots.keys.Nodup) : ∃ table, slots.toTable = .ok table := by
  cases slots with
  | ordering keys =>
    have hkeys : ((Table.empty : Table Key Count).keys ++ keys).Nodup := h
    obtain ⟨table, ht, -⟩ := keys_number hkeys
    exact ⟨table, ht⟩
  | mapping given => exact ⟨given, rfl⟩

theorem size_toTable {slots : SlotTable} {table : Table Key Count} (h : slots.toTable = .ok table) :
    table.size = slots.keys.length := by
  rw [← (keys_toTable h).2, Table.keys, List.length_map, Table.size]

/-- A numbering fails at a key that it has met before. -/
theorem number_eq_error {t : Table Key Count} {next : Nat} {keys : List Key} {e : Fault}
    (h : number t next keys = .error e) :
    ∃ key, List.Duplicate key (t.keys ++ keys) ∧ e = .slotDuplicate key := by
  induction keys generalizing t next with
  | nil => cases h
  | cons key rest ih =>
    unfold number at h
    split at h
    · rename_i hc
      cases h
      refine ⟨key, ?_, rfl⟩
      have hmem : key ∈ t.keys := Table.contains_iff.mp hc
      rw [List.duplicate_iff_two_le_count, List.count_append, List.count_cons_self]
      have hcount := List.count_pos_iff.mpr hmem
      omega
    · rename_i hc
      have hno : key ∉ t.keys := mt Table.contains_iff.mpr hc
      obtain ⟨key', hkey', he⟩ := ih h
      rw [Table.keys_insert, if_neg hno, List.append_assoc] at hkey'
      exact ⟨key', hkey', he⟩

theorem toTable_eq_error {slots : SlotTable} {e : Fault} (h : slots.toTable = .error e) :
    ∃ key, List.Duplicate key slots.keys ∧ e = .slotDuplicate key := by
  cases slots with
  | ordering keys => exact number_eq_error h
  | mapping given => cases h

theorem slot_of_mem {slots : SlotTable} (hs : slots.Whole) (hd : slots.keys.Nodup) {key : Key}
    (h : key ∈ slots.keys) : slots.slot key = .ok (slots.slotOf key) := by
  obtain ⟨table, ht⟩ := exists_toTable hd
  obtain ⟨n, hn⟩ : ∃ n, table.find? key = some (.whole n) := by
    cases slots with
    | ordering keys =>
      obtain ⟨i, hi⟩ := List.mem_iff_getElem?.mp h
      obtain ⟨-, -, -, hpos, -⟩ := find?_number ht
      exact ⟨_, hpos i key hi⟩
    | mapping given =>
      cases ht
      cases hf : table.find? key with
      | none => exact absurd h (Table.find?_eq_none_iff.mp hf)
      | some count =>
        obtain ⟨n, rfl⟩ := hs _ (Table.mem_of_find? hf)
        exact ⟨n, rfl⟩
  have hslot : slots.slot key = .ok n := by
    rw [slot, ht, ok_bind, find, hn]
    rfl
  rw [slotOf_eq hslot, hslot]

theorem slot_of_not_mem {slots : SlotTable} (hd : slots.keys.Nodup) {key : Key} (h : key ∉ slots.keys) :
    slots.slot key = .error (.slotMissing key) := by
  obtain ⟨table, ht⟩ := exists_toTable hd
  have hnot : key ∉ table.keys := by rwa [(keys_toTable ht).2]
  rw [slot, ht, ok_bind, find, Table.find?_eq_none_iff.mpr hnot]

end BundleAdjustment.SlotTable
