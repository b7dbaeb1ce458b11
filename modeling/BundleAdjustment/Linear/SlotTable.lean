import BundleAdjustment.Count
import BundleAdjustment.Table

/-!
Slot tables: which block row of a matrix belongs to which unknown.

A slot table is either an ordering, whose keys have their positions as slots, or a mapping that
states each slot. An ordering may not repeat a key; nothing else is checked before a key is
looked up.
-/
namespace BundleAdjustment

/-- Which slot belongs to which key. -/
inductive SlotTable where
  /-- Each key's slot is its position. -/
  | ordering (keys : List Key)
  /-- Each key's slot is stated. -/
  | mapping (slots : Table Key Count)

namespace SlotTable

/-- Extends a table by keys that take the positions from `next` on. -/
def number (t : Table Key Count) (next : Nat) : List Key → Except Fault (Table Key Count)
  | [] => .ok t
  | k :: rest =>
    if t.contains k then .error (.slotDuplicate k)
    else number (t.insert k (.whole next)) (next + 1) rest

/-- The table with every slot stated. -/
def toTable : SlotTable → Except Fault (Table Key Count)
  | ordering keys => number Table.empty 0 keys
  | mapping slots => .ok slots

/-- The slot of a key in a table with every slot stated. -/
def find (t : Table Key Count) (key : Key) : Except Fault Int :=
  match t.find? key with
  | some slot => slot.truncate
  | none => .error (.slotMissing key)

def slot (s : SlotTable) (key : Key) : Except Fault Int := do
  find (← s.toTable) key

/-- An ordering that repeats no key is accepted and keeps its order. -/
theorem keys_number {t : Table Key Count} {next : Nat} {keys : List Key}
    (h : (t.keys ++ keys).Nodup) :
    ∃ t', number t next keys = .ok t' ∧ t'.keys = t.keys ++ keys := by
  induction keys generalizing t next with
  | nil => exact ⟨t, rfl, by simp⟩
  | cons k rest ih =>
    have hk : k ∉ t.keys := by
      intro hk
      rw [List.nodup_append] at h
      exact h.2.2 k hk k (by simp) rfl
    have hc : t.contains k = false := by
      simp [Table.contains, Table.find?_eq_none_iff.2 hk]
    have hi : (t.insert k (.whole next)).keys = t.keys ++ [k] := by
      rw [Table.keys_insert, if_neg hk]
    obtain ⟨t', ht, hkeys⟩ := @ih (t.insert k (.whole next)) (next + 1) (by
      rw [hi, List.append_assoc]
      exact h)
    refine ⟨t', ?_, ?_⟩
    · rw [number, hc]
      exact ht
    · rw [hkeys, hi, List.append_assoc]
      rfl

end SlotTable
end BundleAdjustment
