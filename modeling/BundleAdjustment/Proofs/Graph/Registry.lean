import BundleAdjustment.Graph
import BundleAdjustment.Proofs.Faults
import Mathlib.Data.List.Nodup

/-!
The register of a graph: which kind each unknown has.

Registering an unknown finds its kind there already, adds it behind the others, or meets another
kind and changes nothing (`register_cases`). So a register only grows, and a kind once given
stays (`prefix_run`). An observation that was taken in has distinct unknowns, each registered with
the kind that the observation asks for (`registered_run`): the kinds of its unknowns differ, so a
key that stands twice in it is a conflict.

Unknowns are registered one by one, and a conflict does not take back those before it. A rejected
observation leaves the graph as it was exactly if all of these were known before
(`addObservation_rejected`).
-/
namespace BundleAdjustment

namespace Table
variable {κ β : Type} [DecidableEq κ]

theorem write_of_read {k : κ} {v : β} {l : List (κ × β)} (h : read k l = some v) : write k v l = l := by
  induction l with
  | nil => cases h
  | cons e rest ih =>
    rw [read] at h
    rw [write]
    by_cases he : e.1 = k
    · rw [if_pos he, Option.some.injEq] at h
      rw [if_pos he, ← he, ← h]
    · rw [if_neg he] at h
      rw [if_neg he, ih h]

/-- Writing what is there changes nothing. -/
theorem insert_of_find? {t : Table κ β} {k : κ} {v : β} (h : t.find? k = some v) : t.insert k v = t := by
  have he : (t.insert k v).entries = t.entries := write_of_read h
  cases ht : t.insert k v
  cases t
  rw [ht] at he
  cases he
  rfl

theorem entries_insert_of_not_mem {t : Table κ β} {k : κ} (v : β) (h : k ∉ t.keys) :
    (t.insert k v).entries = t.entries ++ [(k, v)] :=
  write_of_not_mem v h

theorem find?_mono {t t' : Table κ β} {k : κ} {v : β} (h : t.entries <+: t'.entries)
    (hv : t.find? k = some v) : t'.find? k = some v :=
  find?_of_mem (h.subset (mem_of_find? hv))

end Table

theorem VariableKind.name_injective : Function.Injective VariableKind.name := by
  intro a b h
  have := congrArg VariableKind.ofName? h
  simpa using this

theorem ObservationKind.nodup_unknowns (k : ObservationKind) : k.unknowns.Nodup := by
  cases k <;> decide

namespace Graph

/-! ### One unknown -/

/-- What registering an unknown does: nothing, an entry behind the others, or a refusal. -/
theorem register_cases (types : Table Key String) (key : Key) (type : String) :
    types.find? key = some type ∧ register types key type = .ok types ∨
      key ∉ types.keys ∧ register types key type = .ok (types.insert key type) ∨
      ∃ old, types.find? key = some old ∧ old ≠ type ∧
        register types key type = .error (.typeConflict key old) := by
  unfold register
  cases hf : types.find? key with
  | none => exact .inr (.inl ⟨Table.find?_eq_none_iff.mp hf, rfl⟩)
  | some old =>
    by_cases ht : old = type
    · subst ht
      refine .inl ⟨rfl, ?_⟩
      simp only [if_true]
      rw [Table.insert_of_find? hf]
    · exact .inr (.inr ⟨old, rfl, ht, if_neg ht⟩)

/-- An accepted unknown is registered with its kind, behind the others if it is new. -/
theorem register_eq_ok {types types' : Table Key String} {key : Key} {type : String}
    (h : register types key type = .ok types') :
    types.entries <+: types'.entries ∧ types'.find? key = some type ∧
      ∀ k, k ∈ types'.keys ↔ k ∈ types.keys ∨ k = key := by
  rcases register_cases types key type with ⟨hf, hr⟩ | ⟨hk, hr⟩ | ⟨old, _, _, hr⟩
  · cases hr.symm.trans h
    refine ⟨List.prefix_rfl, hf, fun k => ⟨.inl, ?_⟩⟩
    rintro (hk | rfl)
    · exact hk
    · exact List.mem_map_of_mem (Table.mem_of_find? hf)
  · cases hr.symm.trans h
    refine ⟨?_, by rw [Table.find?_insert, if_pos rfl], fun k => ?_⟩
    · rw [Table.entries_insert_of_not_mem type hk]
      exact List.prefix_append _ _
    · rw [Table.keys_insert, if_neg hk, List.mem_append, List.mem_singleton]
  · cases hr.symm.trans h

/-! ### The unknowns of an observation -/

theorem registerAll_eq_ok {types types' : Table Key String} {pairs : List (Key × VariableKind)}
    (h : registerAll types pairs = (types', .ok ())) :
    types.entries <+: types'.entries ∧ (∀ e ∈ pairs, types'.find? e.1 = some e.2.name) ∧
      ∀ k, k ∈ types'.keys ↔ k ∈ types.keys ∨ k ∈ pairs.map Prod.fst := by
  induction pairs generalizing types with
  | nil =>
    cases h
    simp
  | cons e rest ih =>
    unfold registerAll at h
    cases hr : register types e.1 e.2.name with
    | error _ =>
      rw [hr] at h
      cases h
    | ok types₁ =>
      rw [hr] at h
      obtain ⟨hp, hf, hk⟩ := register_eq_ok hr
      obtain ⟨hp', hf', hk'⟩ := ih h
      refine ⟨hp.trans hp', ?_, fun k => ?_⟩
      · rw [List.forall_mem_cons]
        exact ⟨Table.find?_mono hp' hf, hf'⟩
      · rw [hk', hk, List.map_cons, List.mem_cons, or_assoc]

/-- Unknowns that are all known leave the register as it is, and only these do. -/
theorem registerAll_eq_self_iff {types types' : Table Key String} {pairs : List (Key × VariableKind)}
    (h : registerAll types pairs = (types', .ok ())) :
    types' = types ↔ ∀ e ∈ pairs, e.1 ∈ types.keys := by
  constructor
  · rintro rfl e he
    exact ((registerAll_eq_ok h).2.2 e.1).mpr (.inr (List.mem_map_of_mem he))
  · intro hall
    induction pairs with
    | nil =>
      cases h
      rfl
    | cons e rest ih =>
      rw [List.forall_mem_cons] at hall
      unfold registerAll at h
      rcases register_cases types e.1 e.2.name with ⟨_, hr⟩ | ⟨hk, _⟩ | ⟨_, _, _, hr⟩
      · rw [hr] at h
        exact ih h hall.2
      · exact absurd hall.1 hk
      · rw [hr] at h
        cases h

/-- A refusal names the first unknown that conflicts; those before it are registered. -/
theorem registerAll_eq_error {types types' : Table Key String} {pairs : List (Key × VariableKind)}
    {e : Fault} (h : registerAll types pairs = (types', .error e)) :
    ∃ before key kind after old, pairs = before ++ (key, kind) :: after ∧
      registerAll types before = (types', .ok ()) ∧ types'.find? key = some old ∧ old ≠ kind.name ∧
      e = .typeConflict key old := by
  induction pairs generalizing types with
  | nil => cases h
  | cons p rest ih =>
    unfold registerAll at h
    cases hr : register types p.1 p.2.name with
    | ok types₁ =>
      rw [hr] at h
      obtain ⟨before, key, kind, after, old, rfl, hb, hf, hne, he⟩ := ih h
      refine ⟨p :: before, key, kind, after, old, rfl, ?_, hf, hne, he⟩
      rw [registerAll, hr]
      exact hb
    | error _ =>
      rw [hr] at h
      rcases register_cases types p.1 p.2.name with ⟨_, hr'⟩ | ⟨_, hr'⟩ | ⟨old, hf, hne, hr'⟩
      · cases hr'.symm.trans hr
      · cases hr'.symm.trans hr
      · cases hr'.symm.trans hr
        cases h
        exact ⟨[], p.1, p.2, rest, old, rfl, rfl, hf, hne, rfl⟩

end Graph

variable {α : Type}

/-- The unknowns of an observation are distinct and registered with the kinds that it asks for. -/
structure Observation.RegisteredIn (o : Observation α) (types : Table Key String) : Prop where
  distinct : o.keys.Nodup
  typed : o.keys.map types.find? = o.kind.unknowns.map fun k => some k.name

theorem Observation.RegisteredIn.mono {o : Observation α} {types types' : Table Key String}
    (h : o.RegisteredIn types) (hp : types.entries <+: types'.entries) : o.RegisteredIn types' := by
  refine ⟨h.distinct, ?_⟩
  rw [← h.typed]
  refine List.map_congr_left fun key hkey => ?_
  have hmem : types.find? key ∈ o.kind.unknowns.map fun k => some k.name :=
    h.typed ▸ List.mem_map_of_mem hkey
  obtain ⟨kind, -, hk⟩ := List.mem_map.mp hmem
  rw [← hk, Table.find?_mono hp hk.symm]

/-- Unknowns that are registered with different kinds are different. -/
theorem Observation.registeredIn_of_typed {o : Observation α} {types : Table Key String}
    (h : ∀ e ∈ o.keys.zip o.kind.unknowns, types.find? e.1 = some e.2.name) : o.RegisteredIn types := by
  have hmap : o.keys.map types.find? = o.kind.unknowns.map fun k => some k.name := by
    have hfst := List.map_fst_zip (Nat.le_of_eq o.keys_length)
    have hsnd := List.map_snd_zip (Nat.le_of_eq o.keys_length.symm)
    calc o.keys.map types.find? = (o.keys.zip o.kind.unknowns).map fun e => types.find? e.1 := by
          conv_lhs => rw [← hfst, List.map_map]
          rfl
      _ = (o.keys.zip o.kind.unknowns).map fun e => some e.2.name := List.map_congr_left h
      _ = o.kind.unknowns.map fun k => some k.name := by
          conv_rhs => rw [← hsnd, List.map_map]
          rfl
  refine ⟨List.Nodup.of_map types.find? ?_, hmap⟩
  rw [hmap]
  exact o.kind.nodup_unknowns.map fun a b hab => VariableKind.name_injective (Option.some.inj hab)

namespace Graph

/-! ### One call -/

/-- What a caller can ask of a graph. -/
inductive Call (α : Type) where
  /-- To register an unknown. -/
  | addVariable (key : Key) (type : String)
  /-- To take in an observation. -/
  | addObservation (o : Observation α)
  /-- To switch an observation on or off. -/
  | setEnabled (position : Int) (enabled : Bool)

/-- The graph after a call, whether it was accepted or refused. -/
def after (g : Graph α) : Call α → Graph α
  | .addVariable key type =>
    match g.addVariable key type with
    | .ok g' => g'
    | .error _ => g
  | .addObservation o => (g.addObservation o).1
  | .setEnabled position enabled =>
    match g.setEnabled position enabled with
    | .ok g' => g'
    | .error _ => g

def run (g : Graph α) (calls : List (Call α)) : Graph α := calls.foldl after g

/-- The unknowns of every observation are registered as it asks for. -/
def Registered (g : Graph α) : Prop := ∀ o ∈ g.observations, o.RegisteredIn g.types

theorem setEnabled_eq_ok {g g' : Graph α} {position : Int} {enabled : Bool}
    (h : g.setEnabled position enabled = .ok g') :
    ∃ i, g' = { g with observations := g.observations.modify i fun o => o.setEnabled enabled } := by
  unfold setEnabled at h
  dsimp only at h
  generalize (if position < 0 then position + g.observations.length else position) = i at h
  by_cases hi : 0 ≤ i ∧ i < g.observations.length
  · rw [if_pos hi] at h
    cases h
    exact ⟨_, rfl⟩
  · rw [if_neg hi] at h
    cases h

/-- A call adds entries behind those that are there, and keeps observations registered. -/
theorem after_registered (g : Graph α) (c : Call α) :
    g.types.entries <+: (g.after c).types.entries ∧ (g.Registered → (g.after c).Registered) := by
  cases c with
  | addVariable key type =>
    cases hr : register g.types key type with
    | error e =>
      have hg : g.after (.addVariable key type) = g := by rw [after, addVariable, hr]; rfl
      rw [hg]
      exact ⟨List.prefix_rfl, id⟩
    | ok types =>
      have hg : g.after (.addVariable key type) = { g with types := types } := by
        rw [after, addVariable, hr]
        rfl
      have hp := (register_eq_ok hr).1
      rw [hg]
      exact ⟨hp, fun hg o ho => (hg o ho).mono hp⟩
  | addObservation o =>
    rcases hr : registerAll g.types (o.keys.zip o.kind.unknowns) with ⟨types, r⟩
    cases r with
    | error e =>
      have hg : g.after (.addObservation o) = { g with types := types } := by
        rw [after, addObservation, hr]
      obtain ⟨_, _, _, _, _, -, hb, -⟩ := registerAll_eq_error hr
      have hp := (registerAll_eq_ok hb).1
      rw [hg]
      exact ⟨hp, fun hg o ho => (hg o ho).mono hp⟩
    | ok u =>
      have hg : g.after (.addObservation o) = ⟨types, g.observations ++ [o]⟩ := by
        rw [after, addObservation, hr]
      obtain ⟨hp, htyped, -⟩ := registerAll_eq_ok hr
      rw [hg]
      refine ⟨hp, fun hg o' ho' => ?_⟩
      rcases List.mem_append.mp ho' with ho' | ho'
      · exact (hg o' ho').mono hp
      · rw [List.mem_singleton.mp ho']
        exact Observation.registeredIn_of_typed htyped
  | setEnabled position enabled =>
    cases hs : g.setEnabled position enabled with
    | error e =>
      have hg : g.after (.setEnabled position enabled) = g := by rw [after, hs]
      rw [hg]
      exact ⟨List.prefix_rfl, id⟩
    | ok g' =>
      have hg : g.after (.setEnabled position enabled) = g' := by rw [after, hs]
      obtain ⟨i, rfl⟩ := setEnabled_eq_ok hs
      rw [hg]
      refine ⟨List.prefix_rfl, fun hg o ho => ?_⟩
      obtain ⟨j, hj⟩ := List.mem_iff_getElem?.mp ho
      rw [List.getElem?_modify] at hj
      obtain ⟨o', ho', rfl⟩ := Option.map_eq_some_iff.mp hj
      have hr := hg o' (List.mem_of_getElem? ho')
      split
      · exact ⟨hr.distinct, hr.typed⟩
      · exact hr

/-! ### Many calls -/

/-- Calls never change or remove an entry. -/
theorem prefix_run (g : Graph α) (calls : List (Call α)) :
    g.types.entries <+: (g.run calls).types.entries := by
  induction calls generalizing g with
  | nil => exact List.prefix_rfl
  | cons c rest ih => exact (after_registered g c).1.trans (ih (g.after c))

theorem registered_run {g : Graph α} (hg : g.Registered) (calls : List (Call α)) :
    (g.run calls).Registered := by
  induction calls generalizing g with
  | nil => exact hg
  | cons c rest ih => exact ih ((after_registered g c).2 hg)

theorem registered_empty : (empty : Graph α).Registered := fun _ ho => nomatch ho

theorem registered_run_empty (calls : List (Call α)) : (run (empty : Graph α) calls).Registered :=
  registered_run registered_empty calls

/-! ### Rejected observations -/

/-- **What a rejected observation leaves behind.** The conflict is with a kind that the key has
been given before. The observations stay as they were, and so do the entries of the register; behind
them stand the unknowns before the conflict that were new. So the graph is as before exactly if
there were none. -/
theorem addObservation_rejected {g : Graph α} {o : Observation α} {e : Fault}
    (h : (g.addObservation o).2 = .error e) :
    ∃ before key kind rest old, o.keys.zip o.kind.unknowns = before ++ (key, kind) :: rest ∧
      e = .typeConflict key old ∧ old ≠ kind.name ∧
      (g.addObservation o).1.types.find? key = some old ∧
      (g.addObservation o).1.observations = g.observations ∧
      g.types.entries <+: (g.addObservation o).1.types.entries ∧
      (∀ k, k ∈ (g.addObservation o).1.keys ↔ k ∈ g.keys ∨ k ∈ before.map Prod.fst) ∧
      ((g.addObservation o).1 = g ↔ ∀ p ∈ before, p.1 ∈ g.keys) := by
  unfold addObservation at h ⊢
  rcases hr : registerAll g.types (o.keys.zip o.kind.unknowns) with ⟨types, r⟩
  rw [hr] at h
  cases r with
  | ok u => cases h
  | error e' =>
    cases h
    obtain ⟨before, key, kind, rest, old, hpairs, hb, hf, hne, he⟩ := registerAll_eq_error hr
    obtain ⟨hp, -, hk⟩ := registerAll_eq_ok hb
    refine ⟨before, key, kind, rest, old, hpairs, he, hne, hf, rfl, hp, hk, ?_⟩
    rw [keys, ← registerAll_eq_self_iff hb]
    constructor
    · intro hg
      exact congrArg Graph.types hg
    · intro ht
      cases g
      exact congrArg (fun t => Graph.mk t _) ht

def twoKeys : Observation Rat where
  kind := .cameraLandmark
  measured := Vec.ofFn 2 fun _ => 0
  noise := none
  keys := [.number 0, .number 1]
  enabled := true
  measured_size := rfl
  keys_length := rfl
  noise_rows := by decide

def oneCamera : Graph Rat := run empty [.addVariable (.number 1) "camera"]

theorem addObservation_rejected_twoKeys :
    (oneCamera.addObservation twoKeys).2 = .error (.typeConflict (.number 1) "camera") ∧
      ∃ before key kind rest old, twoKeys.keys.zip twoKeys.kind.unknowns = before ++ (key, kind) :: rest ∧
        Fault.typeConflict (.number 1) "camera" = .typeConflict key old ∧ old ≠ kind.name ∧
        (oneCamera.addObservation twoKeys).1.types.find? key = some old ∧
        (oneCamera.addObservation twoKeys).1.observations = oneCamera.observations ∧
        oneCamera.types.entries <+: (oneCamera.addObservation twoKeys).1.types.entries ∧
        (∀ k, k ∈ (oneCamera.addObservation twoKeys).1.keys ↔
          k ∈ oneCamera.keys ∨ k ∈ before.map Prod.fst) ∧
        ((oneCamera.addObservation twoKeys).1 = oneCamera ↔ ∀ p ∈ before, p.1 ∈ oneCamera.keys) :=
  ⟨rfl, addObservation_rejected rfl⟩

/-- The landmark is taken for a camera, so the observation is rejected; its own camera stays. -/
theorem keys_rejected_twoKeys :
    (oneCamera.addObservation twoKeys).2 = .error (.typeConflict (.number 1) "camera") ∧
      oneCamera.keys = [.number 1] ∧ (oneCamera.addObservation twoKeys).1.keys = [.number 1, .number 0] :=
  ⟨rfl, rfl, rfl⟩

end Graph
end BundleAdjustment
