import BundleAdjustment.Graph
import BundleAdjustment.Proofs.Observation.Linearization

/-!
What a graph computes from estimates.

A graph's linear factors are those of its active observations, in their order
(`linearize_eq_ok`), its error is the sum of theirs (`value_error`), and its information matrix is
assembled from the factors in the slots and widths of an ordering (`hessian_eq_ok_iff`). The notes on
the way change none of this.
-/
namespace BundleAdjustment

namespace Observation
variable {α : Type}

/-- The estimates of an observation are those that stand under its keys. -/
theorem estimates_eq_ok {o : Observation α} {values : Table Key (Tensor α)} {vs : List (Tensor α)} :
    o.estimates values = .ok vs ↔ o.keys.map values.find? = vs.map some := by
  rw [estimates, mapM_eq_ok]
  generalize o.keys = keys
  induction keys generalizing vs with
  | nil => cases vs <;> simp
  | cons key rest ih =>
    cases vs with
    | nil => simp
    | cons t vs =>
      simp only [List.map_cons, List.cons.injEq, ih]
      cases values.find? key <;> simp

theorem length_estimates {o : Observation α} {values : Table Key (Tensor α)} {vs : List (Tensor α)}
    (h : o.estimates values = .ok vs) : vs.length = o.keys.length := by
  simpa using (congrArg List.length (estimates_eq_ok.mp h)).symm

variable [Scalar α]

theorem blind_whitenedResidual (o : Observation α) (values : Table Key (Tensor α)) :
    (o.whitenedResidual values).Blind :=
  (Noted.blind_lift _).bind fun vs => (o.blind_evaluate vs).bind fun _ => Noted.blind_lift _

theorem value_whitenedResidual (o : Observation α) (values : Table Key (Tensor α)) :
    (o.whitenedResidual values).value = o.estimates values >>= fun vs =>
      (o.evaluate vs).value >>= fun s => LinearFactor.whitenVec o.noise s.1 := by
  rw [whitenedResidual, Noted.value_bind fun vs => (o.blind_evaluate vs).bind fun _ => Noted.blind_lift _,
    Noted.value_lift]
  congr 1
  funext vs
  rw [Noted.value_bind fun _ => Noted.blind_lift _]
  rfl

theorem blind_error (o : Observation α) (values : Table Key (Tensor α)) : (o.error values).Blind := by
  unfold error
  split
  · exact (o.blind_whitenedResidual values).bind fun _ => Noted.blind_pure _
  · exact Noted.blind_pure _

theorem value_error {o : Observation α} (h : o.enabled = true) (values : Table Key (Tensor α)) :
    (o.error values).value = (o.whitenedResidual values).value >>= fun e => .ok (0.5 * e.dot e) := by
  rw [error, if_pos h, Noted.value_bind fun _ => Noted.blind_pure _]
  rfl

theorem value_error_of_disabled {o : Observation α} (h : o.enabled = false)
    (values : Table Key (Tensor α)) : (o.error values).value = .ok 0 := by
  rw [error, h]
  rfl

section Evaluated
variable {o : Observation α} {values : Table Key (Tensor α)} {vs : List (Tensor α)} {r : Vec α}
  {jacobians : List (Mat α)} (hen : o.enabled = true) (hvs : o.estimates values = .ok vs)
  (hr : (o.evaluate vs).value = .ok (r, jacobians))
include hen hvs hr

theorem value_linearize_of_evaluate : (o.linearize values).value = (o.fold r jacobians).map some := by
  rw [value_linearize hen, hvs, ok_bind, hr, ok_bind]

theorem value_error_of_evaluate : (o.error values).value =
    LinearFactor.whitenVec o.noise r >>= fun e => .ok (0.5 * e.dot e) := by
  rw [value_error hen, value_whitenedResidual, hvs, ok_bind, hr, ok_bind]

end Evaluated
end Observation

/-! ### The widths of an ordering -/

namespace Variable

theorem widthOf_eq_ok {types : Table Key String} {key : Key} {w : Nat}
    (h : (do tangentWidth (← lookUp types key)) = .ok w) :
    ∃ kind, (types.find? key).bind VariableKind.ofName? = some kind ∧ w = kind.width := by
  rw [lookUp] at h
  cases ht : types.find? key with
  | none =>
    rw [ht] at h
    cases h
  | some type =>
    rw [ht] at h
    have h : tangentWidth type = .ok w := h
    rw [tangentWidth] at h
    cases hk : VariableKind.ofName? type with
    | none =>
      rw [hk] at h
      cases h
    | some kind =>
      rw [hk] at h
      cases h
      exact ⟨kind, hk, rfl⟩

/-- An ordering that has widths is one of unknowns of known kinds, and the widths are theirs. -/
theorem widths_eq_ok {ordering : List Key} {types : Table Key String} {ws : List Nat}
    (h : widths ordering types = .ok ws) :
    ∃ kinds : List VariableKind,
      ordering.map (fun key => (types.find? key).bind VariableKind.ofName?) = kinds.map some ∧
        ws = kinds.map VariableKind.width := by
  rw [widths, mapM_eq_ok] at h
  induction ordering generalizing ws with
  | nil =>
    cases ws with
    | nil => exact ⟨[], rfl, rfl⟩
    | cons w ws => cases h
  | cons key rest ih =>
    cases ws with
    | nil => cases h
    | cons w ws =>
      simp only [List.map_cons, List.cons.injEq] at h
      obtain ⟨kind, hkind, rfl⟩ := widthOf_eq_ok h.1
      obtain ⟨kinds, hkinds, rfl⟩ := ih h.2
      exact ⟨kind :: kinds, by rw [List.map_cons, List.map_cons, hkind, hkinds], rfl⟩

/-- Registered unknowns have widths, unless one has a type that no kind has. -/
theorem widths_eq_error {ordering : List Key} {types : Table Key String} {e : Fault}
    (hreg : ∀ key ∈ ordering, key ∈ types.keys) (h : widths ordering types = .error e) :
    ∃ key type, types.find? key = some type ∧ VariableKind.ofName? type = none ∧ e = .unknownType type := by
  obtain ⟨key, hkey, h⟩ := mapM_eq_error h
  rw [lookUp] at h
  cases ht : types.find? key with
  | none => exact absurd (hreg key hkey) (Table.find?_eq_none_iff.mp ht)
  | some type =>
    rw [ht] at h
    have h : tangentWidth type = .error e := h
    rw [tangentWidth] at h
    cases hk : VariableKind.ofName? type with
    | none =>
      rw [hk] at h
      cases h
      exact ⟨key, type, ht, hk, rfl⟩
    | some kind =>
      rw [hk] at h
      cases h

theorem truncate_counts (ws : List Nat) : (counts ws).mapM Count.truncate = .ok (ws.map Int.ofNat) := by
  rw [mapM_eq_ok, counts, List.map_map, List.map_map]
  rfl

end Variable

/-! ### Factors, error and information matrix -/

namespace Graph
variable {α : Type} [Scalar α]

theorem blind_linearize (g : Graph α) (values : Table Key (Tensor α)) : (g.linearize values).Blind := by
  refine (Noted.blind_mapM (fun o => Observation.blind_linearize o values) g.observations).bind
    fun linear => ?_
  dsimp only
  split
  · exact (Noted.blind_note _).bind fun _ => Noted.blind_pure _
  · exact Noted.blind_pure _

theorem value_linearize (g : Graph α) (values : Table Key (Tensor α)) :
    (g.linearize values).value =
      (g.observations.mapM fun o : Observation α => (o.linearize values).value).map (List.filterMap id) := by
  rw [linearize, Noted.value_bind, Noted.value_mapM fun o => Observation.blind_linearize o values]
  · cases g.observations.mapM fun o : Observation α => (o.linearize values).value with
    | error e => rfl
    | ok linear =>
      rw [ok_bind]
      dsimp only
      split <;> rfl
  · intro linear
    dsimp only
    split
    · exact (Noted.blind_note _).bind fun _ => Noted.blind_pure _
    · exact Noted.blind_pure _

/-- The factors of a graph are those of its active observations. -/
theorem linearize_eq_ok {g : Graph α} {values : Table Key (Tensor α)} {factors : List (LinearFactor α)} :
    (g.linearize values).value = .ok factors ↔
      ∃ linear : List (Option (LinearFactor α)),
        g.observations.map (fun o => (o.linearize values).value) = linear.map .ok ∧
        factors = linear.filterMap id := by
  rw [value_linearize]
  constructor
  · intro h
    cases hl : g.observations.mapM fun o : Observation α => (o.linearize values).value with
    | error e =>
      rw [hl] at h
      cases h
    | ok linear =>
      rw [hl] at h
      cases h
      exact ⟨linear, mapM_eq_ok.mp hl, rfl⟩
  · rintro ⟨linear, hl, rfl⟩
    rw [mapM_eq_ok.mpr hl]
    rfl

theorem exists_of_mem_linearize {g : Graph α} {values : Table Key (Tensor α)} {factors : List (LinearFactor α)}
    (h : (g.linearize values).value = .ok factors) {f : LinearFactor α} (hf : f ∈ factors) :
    ∃ o ∈ g.observations, (o.linearize values).value = .ok (some f) := by
  obtain ⟨linear, hl, rfl⟩ := linearize_eq_ok.mp h
  obtain ⟨out, hout, hfout⟩ := List.mem_filterMap.mp hf
  have hmem : (Except.ok out : Except Fault _) ∈ linear.map .ok := List.mem_map_of_mem hout
  rw [← hl] at hmem
  obtain ⟨o, ho, hoo⟩ := List.mem_map.mp hmem
  exact ⟨o, ho, hoo.trans (congrArg Except.ok hfout)⟩

theorem blind_accumulate (factors : List (Option (LinearFactor α))) (slots : SlotTable)
    (widths : List Count) : (accumulate factors slots widths).Blind :=
  (Noted.blind_lift _).bind fun _ => (Noted.blind_note _).bind fun _ => Noted.blind_pure _

theorem value_accumulate (factors : List (Option (LinearFactor α))) (slots : SlotTable)
    (widths : List Count) :
    (accumulate factors slots widths).value = BlockMatrix.accumulate factors slots widths := by
  rw [accumulate, Noted.value_bind fun _ => (Noted.blind_note _).bind fun _ => Noted.blind_pure _,
    Noted.value_lift]
  cases BlockMatrix.accumulate factors slots widths <;> rfl

/-- The information matrix is assembled from the factors, in the slots and widths of the ordering. -/
theorem value_hessian (g : Graph α) (values : Table Key (Tensor α)) (ordering : Option (List Key)) :
    (g.hessian values ordering).value = (do
      let slots ← Variable.slotTable (ordering.getD g.keys)
      let widths ← Variable.widths slots.keys g.types
      let factors ← (g.linearize values).value
      BlockMatrix.accumulate (factors.map some) (.mapping slots) (Variable.counts widths)) := by
  have hfactors : ∀ slots widths, Noted.Blind (g.linearize values >>= fun factors =>
      accumulate (factors.map some) slots widths) := fun slots widths =>
    (g.blind_linearize values).bind fun factors => blind_accumulate _ _ _
  rw [hessian, Noted.value_bind fun slots => (Noted.blind_lift _).bind fun widths => hfactors _ _,
    Noted.value_lift]
  congr 1
  funext slots
  rw [Noted.value_bind fun widths => hfactors _ _, Noted.value_lift]
  congr 1
  funext widths
  rw [Noted.value_bind fun factors => blind_accumulate _ _ _]
  congr 1
  funext factors
  exact value_accumulate _ _ _

theorem hessian_eq_ok_iff {g : Graph α} {values : Table Key (Tensor α)} {ordering : Option (List Key)}
    {M : BlockMatrix α} :
    (g.hessian values ordering).value = .ok M ↔
      ∃ table ws factors, Variable.slotTable (ordering.getD g.keys) = .ok table ∧
        Variable.widths table.keys g.types = .ok ws ∧ (g.linearize values).value = .ok factors ∧
        BlockMatrix.accumulate (factors.map some) (.mapping table) (Variable.counts ws) = .ok M := by
  simp only [value_hessian, bind_eq_ok]
  constructor
  · rintro ⟨table, ht, ws, hw, factors, hf, hM⟩
    exact ⟨table, ws, factors, ht, hw, hf, hM⟩
  · rintro ⟨table, ws, factors, ht, hw, hf, hM⟩
    exact ⟨table, ht, ws, hw, factors, hf, hM⟩

/-- The error of a graph adds up those of its observations. -/
theorem value_error (g : Graph α) (values : Table Key (Tensor α)) :
    (g.error values).value =
      g.observations.foldlM (fun total o => (o.error values).value.map fun e => total + e) 0 := by
  rw [error, Noted.value_foldlM fun total o => (o.blind_error values).bind fun _ => Noted.blind_pure _]
  congr 1
  funext total o
  rw [Noted.value_bind fun _ => Noted.blind_pure _]
  cases (o.error values).value <;> rfl

end Graph
end BundleAdjustment
