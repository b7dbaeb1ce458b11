/-!
Tables: dictionaries that remember the order in which their keys were first written.

A table is a list of pairs with distinct keys. Writing to a key that is present replaces its
value in place; writing to a new key appends. Main statements: what a look-up sees after a
write (`find?_insert`), and which keys a write leaves, in which order (`keys_insert`).
-/
namespace BundleAdjustment

/-- Pairs with distinct keys, in the order of first insertion. -/
structure Table (κ : Type) (β : Type) where
  entries : List (κ × β)
  distinct : (entries.map Prod.fst).Nodup

namespace Table
variable {κ β γ : Type}

def empty : Table κ β := ⟨[], List.nodup_nil⟩

instance : Inhabited (Table κ β) := ⟨empty⟩

/-- The keys, oldest first. -/
def keys (t : Table κ β) : List κ := t.entries.map Prod.fst

def size (t : Table κ β) : Nat := t.entries.length

def mapValues (f : κ → β → γ) (t : Table κ β) : Table κ γ :=
  ⟨t.entries.map fun e => (e.1, f e.1 e.2), by
    simpa [List.map_map, Function.comp_def] using t.distinct⟩

@[simp] theorem keys_mapValues (f : κ → β → γ) (t : Table κ β) :
    (t.mapValues f).keys = t.keys := by
  simp [keys, mapValues, Function.comp_def]

theorem nodup_keys (t : Table κ β) : t.keys.Nodup := t.distinct

section Faults
variable {ε : Type}

/-- Every value of a list of pairs through a function that may fail. The first fault ends the
work. -/
def mapPairsM (f : κ → β → Except ε γ) : List (κ × β) → Except ε (List (κ × γ))
  | [] => .ok []
  | e :: rest => do
    let v ← f e.1 e.2
    return (e.1, v) :: (← mapPairsM f rest)

theorem map_fst_mapPairsM {f : κ → β → Except ε γ} {l : List (κ × β)} {l' : List (κ × γ)}
    (h : mapPairsM f l = .ok l') : l'.map Prod.fst = l.map Prod.fst := by
  induction l generalizing l' with
  | nil => cases h; rfl
  | cons e rest ih =>
    cases hv : f e.1 e.2 with
    | error _ => simp [mapPairsM, hv, bind, Except.bind] at h
    | ok v =>
      cases hr : mapPairsM f rest with
      | error _ => simp [mapPairsM, hv, hr, bind, Except.bind] at h
      | ok r =>
        simp only [mapPairsM, hv, hr, bind, Except.bind, pure, Except.pure, Except.ok.injEq] at h
        subst h
        simp [ih hr]

theorem mapPairsM_of_forall {f : κ → β → Except ε γ} {g : κ → β → γ} {l : List (κ × β)}
    (h : ∀ e ∈ l, f e.1 e.2 = .ok (g e.1 e.2)) :
    mapPairsM f l = .ok (l.map fun e => (e.1, g e.1 e.2)) := by
  induction l with
  | nil => rfl
  | cons e rest ih =>
    simp only [mapPairsM, h e (by simp), ih fun a ha => h a (List.mem_cons_of_mem _ ha), bind,
      Except.bind, pure, Except.pure, List.map_cons]

/-- Every value through a function of its key and itself that may fail; of several faults the
first one in the order of the keys is reported. -/
def mapValuesM (f : κ → β → Except ε γ) (t : Table κ β) : Except ε (Table κ γ) :=
  match h : mapPairsM f t.entries with
  | .ok l => .ok ⟨l, (map_fst_mapPairsM h).symm ▸ t.distinct⟩
  | .error e => .error e

/-- Where nothing fails, the keys stay. -/
theorem keys_of_mapValuesM {f : κ → β → Except ε γ} {t : Table κ β} {t' : Table κ γ}
    (h : t.mapValuesM f = .ok t') : t'.keys = t.keys := by
  unfold mapValuesM at h
  split at h
  · rename_i l hl
    cases h
    exact map_fst_mapPairsM hl
  · cases h

/-- A function that fails on no value of a table is one that cannot fail. -/
theorem mapValuesM_of_forall {f : κ → β → Except ε γ} {g : κ → β → γ} {t : Table κ β}
    (h : ∀ e ∈ t.entries, f e.1 e.2 = .ok (g e.1 e.2)) :
    t.mapValuesM f = .ok (t.mapValues g) := by
  unfold mapValuesM
  have hp := mapPairsM_of_forall h
  split
  · rename_i l hl
    rw [hp] at hl
    cases hl
    rfl
  · rename_i e he
    rw [hp] at he
    cases he

theorem mapPairsM_eq_error {f : κ → β → Except ε γ} {l : List (κ × β)} {e : ε}
    (h : mapPairsM f l = .error e) : ∃ u ∈ l, f u.1 u.2 = .error e := by
  induction l with
  | nil => cases h
  | cons u rest ih =>
    cases hv : f u.1 u.2 with
    | error e' =>
      simp only [mapPairsM, hv, bind, Except.bind, Except.error.injEq] at h
      exact ⟨u, List.mem_cons_self .., h ▸ hv⟩
    | ok v =>
      cases hr : mapPairsM f rest with
      | error e' =>
        simp only [mapPairsM, hv, hr, bind, Except.bind, Except.error.injEq] at h
        obtain ⟨u', hu', he⟩ := ih (h ▸ hr)
        exact ⟨u', List.mem_cons_of_mem u hu', he⟩
      | ok r => simp [mapPairsM, hv, hr, bind, Except.bind, pure, Except.pure] at h

/-- What fails on a table fails on one of its values. -/
theorem mapValuesM_eq_error {f : κ → β → Except ε γ} {t : Table κ β} {e : ε}
    (h : t.mapValuesM f = .error e) : ∃ u ∈ t.entries, f u.1 u.2 = .error e := by
  unfold mapValuesM at h
  split at h
  · cases h
  · rename_i e' he
    cases h
    exact mapPairsM_eq_error he

theorem mapPairsM_eq_map {f : κ → β → Except ε γ} {g : κ → β → γ} {l : List (κ × β)}
    {l' : List (κ × γ)} (hg : ∀ e ∈ l, ∀ v, f e.1 e.2 = .ok v → v = g e.1 e.2)
    (h : mapPairsM f l = .ok l') : l' = l.map fun e => (e.1, g e.1 e.2) := by
  induction l generalizing l' with
  | nil => cases h; rfl
  | cons e rest ih =>
    cases hv : f e.1 e.2 with
    | error _ => simp [mapPairsM, hv, bind, Except.bind] at h
    | ok v =>
      cases hr : mapPairsM f rest with
      | error _ => simp [mapPairsM, hv, hr, bind, Except.bind] at h
      | ok r =>
        simp only [mapPairsM, hv, hr, bind, Except.bind, pure, Except.pure, Except.ok.injEq] at h
        rw [← h, hg e (by simp) v hv, ih (fun a ha => hg a (List.mem_cons_of_mem _ ha)) hr, List.map_cons]

/-- Where nothing fails, every value is what the function makes of it. -/
theorem entries_of_mapValuesM {f : κ → β → Except ε γ} {g : κ → β → γ} {t : Table κ β} {t' : Table κ γ}
    (hg : ∀ e ∈ t.entries, ∀ v, f e.1 e.2 = .ok v → v = g e.1 e.2) (h : t.mapValuesM f = .ok t') :
    t'.entries = t.entries.map fun e => (e.1, g e.1 e.2) := by
  unfold mapValuesM at h
  split at h
  · rename_i l hl
    cases h
    exact mapPairsM_eq_map hg hl
  · cases h

end Faults

variable [DecidableEq κ]

/-- Replaces the value of a key in a list of pairs, or appends the pair. -/
def write (k : κ) (v : β) : List (κ × β) → List (κ × β)
  | [] => [(k, v)]
  | e :: rest => if e.1 = k then (k, v) :: rest else e :: write k v rest

theorem map_fst_write (k : κ) (v : β) (l : List (κ × β)) :
    (write k v l).map Prod.fst =
      if k ∈ l.map Prod.fst then l.map Prod.fst else l.map Prod.fst ++ [k] := by
  induction l with
  | nil => simp [write]
  | cons e rest ih =>
    by_cases h : e.1 = k
    · simp [write, h]
    · have hk : k ≠ e.1 := fun hk => h hk.symm
      by_cases hm : k ∈ rest.map Prod.fst <;> simp_all [write]

/-- The value beside the first occurrence of a key in a list of pairs. -/
def read (k : κ) : List (κ × β) → Option β
  | [] => none
  | e :: rest => if e.1 = k then some e.2 else read k rest

def find? (t : Table κ β) (k : κ) : Option β := read k t.entries

def contains (t : Table κ β) (k : κ) : Bool := (t.find? k).isSome

/-- Gives a key a value, in place if the key is known. -/
def insert (t : Table κ β) (k : κ) (v : β) : Table κ β :=
  ⟨write k v t.entries, by
    rw [map_fst_write]
    split
    · exact t.distinct
    · rename_i h
      exact List.nodup_append.2 ⟨t.distinct, by simp, by
        intro a ha b hb hab
        simp only [List.mem_singleton] at hb
        exact h (hb ▸ hab ▸ ha)⟩⟩

/-- Pairs written one after the other. -/
def ofList (l : List (κ × β)) : Table κ β := l.foldl (fun t e => t.insert e.1 e.2) empty

/-- A write keeps the order of the keys and puts a new one last. -/
theorem keys_insert (t : Table κ β) (k : κ) (v : β) :
    (t.insert k v).keys = if k ∈ t.keys then t.keys else t.keys ++ [k] :=
  map_fst_write k v t.entries

theorem read_write (k k' : κ) (v : β) (l : List (κ × β)) :
    read k' (write k v l) = if k = k' then some v else read k' l := by
  induction l with
  | nil => rfl
  | cons e rest ih => by_cases h : e.1 = k <;> grind [write, read]

/-- A write is seen at its key and nowhere else. -/
theorem find?_insert (t : Table κ β) (k k' : κ) (v : β) :
    (t.insert k v).find? k' = if k = k' then some v else t.find? k' :=
  read_write k k' v t.entries

/-- Whatever stands in a list after a write is the pair written or stood there before. -/
theorem mem_write {k : κ} {v : β} {l : List (κ × β)} {e : κ × β} (h : e ∈ write k v l) :
    e = (k, v) ∨ e ∈ l := by
  induction l with
  | nil => simp_all [write]
  | cons a rest ih =>
    by_cases ha : a.1 = k <;> grind [write]

theorem write_of_not_mem {k : κ} (v : β) {l : List (κ × β)} (h : k ∉ l.map Prod.fst) :
    write k v l = l ++ [(k, v)] := by
  induction l with
  | nil => rfl
  | cons e rest ih =>
    rw [List.map_cons, List.mem_cons, not_or] at h
    rw [write, if_neg fun he => h.1 he.symm, ih h.2, List.cons_append]

theorem mem_insert {t : Table κ β} {k : κ} {v : β} {e : κ × β} (h : e ∈ (t.insert k v).entries) :
    e = (k, v) ∨ e ∈ t.entries :=
  mem_write h

theorem mem_of_read {k : κ} {v : β} {l : List (κ × β)} (h : read k l = some v) : (k, v) ∈ l := by
  induction l with
  | nil => simp [read] at h
  | cons e rest ih => grind [read]

/-- What a look-up finds stands in the table. -/
theorem mem_of_find? {t : Table κ β} {k : κ} {v : β} (h : t.find? k = some v) :
    (k, v) ∈ t.entries :=
  mem_of_read h

theorem read_eq_none_iff {k : κ} {l : List (κ × β)} : read k l = none ↔ k ∉ l.map Prod.fst := by
  induction l with
  | nil => simp [read]
  | cons e rest ih => by_cases h : e.1 = k <;> grind [read]

/-- A look-up fails exactly at the keys that the table lacks. -/
theorem find?_eq_none_iff {t : Table κ β} {k : κ} : t.find? k = none ↔ k ∉ t.keys :=
  read_eq_none_iff

theorem contains_iff {t : Table κ β} {k : κ} : t.contains k = true ↔ k ∈ t.keys := by
  rw [contains, Option.isSome_iff_ne_none, Ne, find?_eq_none_iff, Decidable.not_not]

theorem read_map (f : κ → β → γ) (k : κ) (l : List (κ × β)) :
    read k (l.map fun e => (e.1, f e.1 e.2)) = (read k l).map (f k) := by
  induction l with
  | nil => rfl
  | cons e rest ih =>
    by_cases h : e.1 = k
    · subst h
      simp [read]
    · simp [read, h, ih]

/-- A look-up sees each value through the function. -/
theorem find?_mapValues (f : κ → β → γ) (t : Table κ β) (k : κ) :
    (t.mapValues f).find? k = (t.find? k).map (f k) :=
  read_map f k t.entries

theorem read_of_mem {k : κ} {v : β} {l : List (κ × β)} (hd : (l.map Prod.fst).Nodup)
    (h : (k, v) ∈ l) : read k l = some v := by
  induction l with
  | nil => simp at h
  | cons e rest ih =>
    simp only [List.map_cons, List.nodup_cons] at hd
    rcases List.mem_cons.1 h with rfl | h
    · simp [read]
    · have hk : e.1 ≠ k := by
        intro hk
        exact hd.1 (List.mem_map.2 ⟨(k, v), h, hk.symm⟩)
      simp [read, hk, ih hd.2 h]

/-- What stands in the table is found there. -/
theorem find?_of_mem {t : Table κ β} {k : κ} {v : β} (h : (k, v) ∈ t.entries) :
    t.find? k = some v :=
  read_of_mem t.distinct h

end Table
end BundleAdjustment
