import BundleAdjustment.Proofs.Exact
import BundleAdjustment.Proofs.Linear.Acceptance
import BundleAdjustment.Proofs.Graph.Evaluation
import BundleAdjustment.Proofs.Graph.Registry

/-!
What can be in the way of a graph's information matrix.

In a graph that is built call by call the keys of an observation are distinct and registered as it
asks for. Then the slots, the widths and the matrices of its factor fit together: with an estimate
of the right length for every unknown, the factors and the information matrix in the default
ordering fail for five reasons only (`Obstacle`), none of them about the register. They are an
observation of no particular kind, a warning that cannot name its landmark, a constrained model
with more or fewer deviations than rows, a hard constraint, and an unknown whose type no kind has.
-/
namespace BundleAdjustment

/-- What can be out of order among keys, slots and widths. -/
inductive Disorder where
  /-- A key is not where it is looked up. -/
  | missing
  /-- Widths or numbers of things that belong together differ. -/
  | mismatch
  /-- A place is used that is not there, or not for this. -/
  | contract
  /-- A key stands twice where it can stand once. -/
  | duplicate
  deriving DecidableEq

/-- Which faults say that keys, slots or widths are out of order. -/
def Fault.disorder : Fault → Option Disorder
  | .layoutMissing _ | .slotMissing _ | .termMissing _ | .vectorMissing _ | .estimateMissing _ => some .missing
  | .blockShape .. | .termShape .. | .modelRows .. | .slotWidth .. | .pairRows .. | .mixedWidths _
  | .otherWidths .. | .spanWidth .. | .measurementShape .. | .keyCount .. | .noiseRows ..
  | .valueCount .. => some .mismatch
  | .spanBounds .. | .spanValue .. | .lowerTriangle .. | .blockIndex .. | .slotsShared _ | .slotRange _
  | .strideKey _ => some .contract
  | .layoutDuplicate _ | .slotDuplicate _ | .termDuplicate _ => some .duplicate
  | _ => none

namespace Graph
variable {α : Type} [Scalar α]

/-- What can be in the way of a graph's information matrix, beside the fault that it shows as. -/
inductive Obstacle (g : Graph α) : Fault → Prop where
  /-- An active observation of no particular kind predicts nothing. -/
  | kindless {o : Observation α} (mem : o ∈ g.observations) (enabled : o.enabled = true)
      (kind : o.kind = .abstract) : Obstacle g .noProjection
  /-- A warning cannot name the landmark or the camera. -/
  | unnamed {o : Observation α} {e : Fault} (mem : o ∈ g.observations) (enabled : o.enabled = true)
      (warning : o.behindCamera = .error e) : Obstacle g e
  /-- A model has more or fewer deviations than rows. -/
  | deviations {o : Observation α} (mem : o ∈ g.observations) (enabled : o.enabled = true)
      (rows : ¬ LinearFactor.OnePerRow o.noise measurementWidth) : Obstacle g .shapeMismatch
  /-- A model marks a hard constraint. -/
  | constrained {o : Observation α} {m : Noise α} {name : String} (mem : o ∈ g.observations)
      (enabled : o.enabled = true) (noise : o.noise = some m) (hard : m.isConstrained = true) :
      Obstacle g (.constrainedUpdate name)
  /-- An unknown is registered with a type that no kind has. -/
  | unknown {key : Key} {type : String} (registered : g.types.find? key = some type)
      (kind : VariableKind.ofName? type = none) : Obstacle g (.unknownType type)

/-- No obstacle is about keys, slots or widths that are out of order. -/
theorem Obstacle.disorder_eq_none {g : Graph α} {e : Fault} (h : g.Obstacle e) : e.disorder = none := by
  cases h with
  | unnamed _ _ hb =>
    rcases Observation.behindCamera_eq_error hb with rfl | rfl <;> rfl
  | _ => rfl

omit [Scalar α] in
/-- Every unknown of a known kind has an estimate of its length. -/
def SizedBy (g : Graph α) (values : Table Key (Tensor α)) : Prop :=
  ∀ key type kind, g.types.find? key = some type → VariableKind.ofName? type = some kind →
    ∃ t, values.find? key = some t ∧ t.shape = [kind.width]

end Graph

/-! ### Factors -/

namespace Observation
variable {α : Type}

/-- A registered observation finds its estimates. -/
theorem estimates_sized {g : Graph α} {o : Observation α} {values : Table Key (Tensor α)}
    (hreg : o.RegisteredIn g.types) (hv : g.SizedBy values) :
    ∃ vs, o.estimates values = .ok vs ∧ Sized o.kind.unknowns vs := by
  obtain ⟨vs, hvs, hs⟩ : ∃ vs, o.keys.map values.find? = vs.map some ∧ Sized o.kind.unknowns vs := by
    have htyped := hreg.typed
    generalize o.keys = keys at htyped
    generalize o.kind.unknowns = kinds at htyped
    induction keys generalizing kinds with
    | nil =>
      cases kinds with
      | nil => exact ⟨[], rfl, rfl⟩
      | cons kind kinds => cases htyped
    | cons key rest ih =>
      cases kinds with
      | nil => cases htyped
      | cons kind kinds =>
        simp only [List.map_cons, List.cons.injEq] at htyped
        obtain ⟨t, ht, hshape⟩ := hv key _ kind htyped.1 kind.ofName?_name
        obtain ⟨vs, hvs, hs⟩ := ih kinds htyped.2
        refine ⟨t :: vs, ?_, ?_⟩
        · rw [List.map_cons, List.map_cons, ht, hvs]
        · rw [Sized, List.map_cons, List.map_cons, hshape, hs]
  exact ⟨vs, estimates_eq_ok.mpr hvs, hs⟩

variable [Scalar α]

/-- A registered observation that is linearized becomes a factor of its keys and widths, or meets an
obstacle. -/
theorem linearize_registered {g : Graph α} {o : Observation α} {values : Table Key (Tensor α)}
    (hreg : o.RegisteredIn g.types) (hv : g.SizedBy values) (hmem : o ∈ g.observations)
    {r : Except Fault (Option (LinearFactor α))} (h : (o.linearize values).value = r) :
    (∃ e, r = .error e ∧ g.Obstacle e) ∨ r = .ok none ∨
      ∃ f, r = .ok (some f) ∧ o.enabled = true ∧ o.FoldedTo f := by
  subst h
  cases he : o.enabled with
  | false =>
    rw [value_linearize_of_disabled he]
    exact .inr (.inl rfl)
  | true =>
    obtain ⟨vs, hvs, hs⟩ := estimates_sized hreg hv
    rw [value_linearize he, hvs, ok_bind]
    obtain ⟨hk, hval⟩ | ⟨e, hb, hval⟩ | ⟨r, jacobians, hval⟩ := evaluate_sized hs
    · rw [hval]
      exact .inl ⟨_, rfl, .kindless hmem he hk⟩
    · rw [hval]
      exact .inl ⟨e, rfl, .unnamed hmem he hb⟩
    · have hshaped := evaluate_shaped (hs.length.trans o.keys_length.symm) hval
      rw [hval, ok_bind]
      obtain ⟨f, hf, hfold⟩ | ⟨hrows, hf⟩ := fold_shaped hreg.distinct hshaped
      · rw [hf]
        exact .inr (.inr ⟨f, rfl, rfl, hfold⟩)
      · rw [hf]
        exact .inl ⟨_, rfl, .deviations hmem he hrows⟩

end Observation

namespace Graph
variable {α : Type} [Scalar α]

/-- The factors of a registered graph are those of its active observations, or there is an obstacle. -/
theorem linearize_sized {g : Graph α} {values : Table Key (Tensor α)} (hreg : g.Registered)
    (hv : g.SizedBy values) :
    (∃ e, (g.linearize values).value = .error e ∧ g.Obstacle e) ∨
      ∃ factors, (g.linearize values).value = .ok factors ∧ ∀ f ∈ factors,
        ∃ o ∈ g.observations, o.enabled = true ∧ o.FoldedTo f := by
  cases h : (g.linearize values).value with
  | error e =>
    refine .inl ⟨e, rfl, ?_⟩
    rw [value_linearize] at h
    cases hl : g.observations.mapM fun o : Observation α => (o.linearize values).value with
    | ok linear =>
      rw [hl] at h
      cases h
    | error e' =>
      rw [hl] at h
      cases h
      obtain ⟨o, ho, he⟩ := mapM_eq_error hl
      obtain ⟨e', he', hob⟩ | hok | ⟨f, hok, -⟩ := Observation.linearize_registered (hreg o ho) hv ho he
      · cases he'
        exact hob
      · cases hok
      · cases hok
  | ok factors =>
    refine .inr ⟨factors, rfl, fun f hf => ?_⟩
    obtain ⟨o, ho, hof⟩ := exists_of_mem_linearize h hf
    obtain ⟨e', he', -⟩ | hok | ⟨f', hok, hen, hfold⟩ := Observation.linearize_registered (hreg o ho) hv ho hof
    · cases he'
    · cases hok
    · cases hok
      exact ⟨o, ho, hen, hfold⟩

/-! ### Places -/

omit [Scalar α] in
/-- Each matrix of such a factor has the width that its key is registered with. -/
theorem typed_entries {types : Table Key String} {o : Observation α} {f : LinearFactor α}
    (hreg : o.RegisteredIn types) (hkeys : f.keys = o.keys)
    (hwidths : f.widths = o.kind.unknowns.map VariableKind.width) :
    ∀ e ∈ f.terms.entries, ∃ kind : VariableKind,
      types.find? e.1 = some kind.name ∧ e.2.cols = kind.width := by
  have htyped := hreg.typed
  rw [← hkeys, LinearFactor.keys, Table.keys, List.map_map] at htyped
  rw [LinearFactor.widths, termWidths] at hwidths
  generalize f.terms.entries = entries at htyped hwidths
  generalize o.kind.unknowns = kinds at htyped hwidths
  induction entries generalizing kinds with
  | nil =>
    intro e he
    cases he
  | cons e rest ih =>
    cases kinds with
    | nil => cases htyped
    | cons kind kinds =>
      simp only [List.map_cons, List.cons.injEq] at htyped hwidths
      rw [List.forall_mem_cons]
      exact ⟨⟨kind, htyped.1, hwidths.1⟩, ih kinds htyped.2 hwidths.2⟩

/-- The slot of every registered unknown of a known kind, with the width of its block. -/
structure Places (g : Graph α) (slots : SlotTable) (M : BlockMatrix α) : Prop where
  slot : ∀ key (kind : VariableKind), g.types.find? key = some kind.name → ∃ i : Nat,
    g.keys[i]? = some key ∧ slots.slot key = .ok i ∧ (i : Int) < M.lastSlot ∧ M.width i = kind.width
  last : M.width M.lastSlot.toNat = 1

omit [Scalar α] in
/-- A factor of registered keys and widths has a place. -/
theorem placedIn_of_places {g : Graph α} {o : Observation α} {f : LinearFactor α} {slots : SlotTable}
    {M : BlockMatrix α} (hreg : o.RegisteredIn g.types) (hplaces : g.Places slots M)
    (hkeys : f.keys = o.keys) (hwidths : f.widths = o.kind.unknowns.map VariableKind.width) :
    f.PlacedIn slots M := by
  have hentries : ∀ e ∈ f.terms.entries, ∃ i : Nat, g.keys[i]? = some e.1 ∧ slots.slot e.1 = .ok i ∧
      (i : Int) < M.lastSlot ∧ M.width i = e.2.cols := by
    intro e he
    obtain ⟨kind, hk, hc⟩ := typed_entries hreg hkeys hwidths e he
    obtain ⟨i, hi, hs, hl, hw⟩ := hplaces.slot e.1 kind hk
    exact ⟨i, hi, hs, hl, hw.trans hc.symm⟩
  have hslot : ∀ key ∈ f.keys, ∃ i : Nat, g.keys[i]? = some key ∧ slots.slot key = .ok i := by
    intro key hkey
    obtain ⟨e, he, rfl⟩ := List.mem_map.mp hkey
    obtain ⟨i, hi, hs, -⟩ := hentries e he
    exact ⟨i, hi, hs⟩
  refine ⟨fun key hkey => ?_, ?_, fun e he => ?_, fun e he => ?_⟩
  · obtain ⟨i, -, hs⟩ := hslot key hkey
    rw [SlotTable.slotOf_eq hs, hs]
  · -- Two keys of one slot stand at one position of the ordering.
    refine List.Nodup.map_on (fun a ha b hb hab => ?_) (hkeys ▸ hreg.distinct)
    obtain ⟨i, hi, hsi⟩ := hslot a ha
    obtain ⟨j, hj, hsj⟩ := hslot b hb
    rw [SlotTable.slotOf_eq hsi, SlotTable.slotOf_eq hsj] at hab
    have hij : i = j := by omega
    rw [hij, hj] at hi
    exact (Option.some.inj hi).symm
  · obtain ⟨i, -, hs, hl, -⟩ := hentries e he
    rw [SlotTable.slotOf_eq hs]
    exact ⟨Int.natCast_nonneg i, hl⟩
  · obtain ⟨i, -, hs, -, hw⟩ := hentries e he
    rw [SlotTable.slotOf_eq hs, Int.toNat_natCast]
    exact hw

theorem exists_of_remainingModel {model : Option (Noise α)} {m' : Noise α}
    (h : LinearFactor.remainingModel model = some m') : ∃ m, model = some m ∧ m.isConstrained = true := by
  cases model with
  | none => cases h
  | some m =>
    cases hc : m.isConstrained with
    | true => exact ⟨m, rfl, hc⟩
    | false =>
      rw [LinearFactor.remainingModel, hc] at h
      cases h

/-- A factor that has a place is folded in, unless it marks a hard constraint. -/
theorem addTo_of_places {g : Graph α} {o : Observation α} {f : LinearFactor α} {slots : SlotTable}
    {M : BlockMatrix α} (hreg : o.RegisteredIn g.types) (hplaces : g.Places slots M) (hmem : o ∈ g.observations)
    (hen : o.enabled = true) (hf : o.FoldedTo f) {e : Fault} (h : (f.addTo slots M).2 = .error e) :
    g.Obstacle e := by
  cases hne : f.isEmpty with
  | true =>
    rw [LinearFactor.addTo, LinearFactor.writes, hne] at h
    cases h
  | false =>
    rcases LinearFactor.writes_cases slots M hne with
      ⟨⟨m', hm', -⟩, hw⟩ | ⟨hno, -⟩ | ⟨-, -, g', hkeys, hwidths, hne', hw⟩
    · obtain ⟨m, hm, hmc⟩ := exists_of_remainingModel (hf.model ▸ hm')
      rw [LinearFactor.addTo, hw] at h
      cases h
      exact .constrained hmem hen hm hmc
    · exact absurd (.inr hf.onePerRow) hno
    · have hplaced := placedIn_of_places hreg hplaces (hkeys.trans hf.keys) (hwidths.trans hf.widths)
      cases (LinearFactor.addTo_of_plainWrites hw hne' hplaced hplaces.last).symm.trans h

/-! ### The information matrix -/

omit [Scalar α] in
theorem exists_ofCounts {ws : List Nat} (h : ∀ w ∈ ws, 0 < w) :
    ∃ M : BlockMatrix α, BlockMatrix.ofCounts (Variable.counts ws) true = .ok M ∧ M.widths = ws ++ [1] := by
  have hpos : ∀ d ∈ ws.map Int.ofNat, 0 < d := by
    intro d hd
    obtain ⟨n, hn, rfl⟩ := List.mem_map.mp hd
    exact Int.natCast_pos.mpr (h n hn)
  obtain ⟨M, hM, hw⟩ := BlockMatrix.exists_ofCounts (α := α) hpos
  rw [List.map_map] at hM hw
  refine ⟨M, hM, ?_⟩
  simpa [Function.comp_def] using hw

theorem width_pos (kind : VariableKind) : 0 < kind.width := by
  cases kind <;> decide

omit [Scalar α] in
/-- The position of an unknown in the register is its slot, and its block has its width. -/
theorem places_of_ordering {g : Graph α} {table : Table Key Count} {kinds : List VariableKind}
    {M : BlockMatrix α} (ht : SlotTable.number Table.empty 0 g.keys = .ok table)
    (hkinds : g.keys.map (fun key => (g.types.find? key).bind VariableKind.ofName?) = kinds.map some)
    (hM : M.widths = kinds.map VariableKind.width ++ [1]) : g.Places (.mapping table) M := by
  obtain ⟨-, -, -, hpos, -⟩ := SlotTable.find?_number ht
  have hlast : M.lastSlot = (kinds.length : Int) := by
    rw [BlockMatrix.lastSlot, BlockMatrix.count, hM, List.length_append, List.length_map]
    simp
  refine ⟨fun key kind hkey => ?_, ?_⟩
  · obtain ⟨i, hi⟩ := List.mem_iff_getElem?.mp (List.mem_map_of_mem (f := Prod.fst) (Table.mem_of_find? hkey))
    have hi : g.keys[i]? = some key := hi
    have hkind : kinds[i]? = some kind := by
      have hget := congrArg (fun l => l[i]?) hkinds
      simp only [List.getElem?_map, hi, Option.map_some, hkey, Option.bind_some,
        VariableKind.ofName?_name] at hget
      obtain ⟨k, hk, he⟩ := Option.map_eq_some_iff.mp hget.symm
      rw [hk, Option.some.inj he]
    have hlt := (List.getElem?_eq_some_iff.mp hkind).1
    refine ⟨i, hi, ?_, ?_, ?_⟩
    · rw [SlotTable.slot, SlotTable.toTable, ok_bind, SlotTable.find, hpos i key hi]
      simp
    · rw [hlast]
      exact Int.ofNat_lt.mpr hlt
    · rw [BlockMatrix.width, hM, List.getD_eq_getElem?_getD,
        List.getElem?_append_left (by simpa using hlt), List.getElem?_map, hkind]
      rfl
  · rw [hlast, Int.toNat_natCast, BlockMatrix.width, hM, List.getD_eq_getElem?_getD,
      List.getElem?_append_right (by simp)]
    simp

/-- Only an obstacle keeps a registered graph from its information matrix. -/
theorem hessian_sized {g : Graph α} {values : Table Key (Tensor α)} (hreg : g.Registered)
    (hv : g.SizedBy values) {e : Fault} (h : (g.hessian values none).value = .error e) : g.Obstacle e := by
  obtain ⟨table, ht, hkeys⟩ : ∃ table, SlotTable.number Table.empty 0 g.keys = .ok table ∧
      table.keys = g.keys := SlotTable.keys_number g.types.nodup_keys
  have hslots : Variable.slotTable g.keys = .ok table := ht
  rw [value_hessian, Option.getD_none, hslots, ok_bind, hkeys] at h
  rcases bind_eq_error.mp h with hw | ⟨ws, hw, h⟩
  · obtain ⟨key, type, htype, hk, rfl⟩ := Variable.widths_eq_error (fun key hkey => hkey) hw
    exact .unknown htype hk
  · obtain ⟨kinds, hkinds, rfl⟩ := Variable.widths_eq_ok hw
    obtain ⟨e', hlin, hob⟩ | ⟨factors, hlin, hfactors⟩ := linearize_sized hreg hv
    · rw [hlin] at h
      cases h
      exact hob
    · have hpos : ∀ w ∈ kinds.map VariableKind.width, 0 < w := by
        intro w hw
        obtain ⟨kind, -, rfl⟩ := List.mem_map.mp hw
        exact width_pos kind
      obtain ⟨M, hM, hMw⟩ := exists_ofCounts (α := α) hpos
      have hlen : (Variable.counts (kinds.map VariableKind.width)).length = table.size := by
        have hsize := congrArg List.length hkeys
        have hk := congrArg List.length hkinds
        simp only [Table.keys, List.length_map] at hsize hk
        rw [Variable.counts, List.length_map, List.length_map, Table.size, hsize, ← hk]
      rw [hlin, ok_bind, BlockMatrix.accumulate, SlotTable.toTable, ok_bind, if_pos hlen, hM, ok_bind] at h
      obtain ⟨f, hf, M', hM', he⟩ := BlockMatrix.foldFactors_eq_error h
      rw [List.filterMap_map, Function.id_comp, List.filterMap_some] at hf
      obtain ⟨o, ho, hen, hfold⟩ := hfactors f hf
      exact addTo_of_places (hreg o ho) (places_of_ordering ht hkinds (hM'.trans hMw)) ho hen hfold he

/-- **The register of a graph is sound.** After any calls, the unknowns of every observation are
distinct and registered with the kinds that it asks for, and a registered type never changes.
Therefore, with an estimate of the right length for every unknown, nothing is missing, of another
width, out of place or there twice when the graph is linearized or its information matrix is
assembled in the default ordering; only an obstacle makes these fail. -/
theorem registry_sound (calls : List (Call α)) :
    (∀ o ∈ (run empty calls : Graph α).observations, o.RegisteredIn (run empty calls : Graph α).types) ∧
      (∀ more key type, (run empty calls : Graph α).types.find? key = some type →
        (run empty (calls ++ more) : Graph α).types.find? key = some type) ∧
      ∀ values, (run empty calls : Graph α).SizedBy values → ∀ e,
        (((run empty calls).linearize values).value = .error e ∨
          ((run empty calls).hessian values none).value = .error e) →
        (run empty calls : Graph α).Obstacle e ∧ e.disorder = none := by
  have hreg : (run empty calls : Graph α).Registered := registered_run_empty calls
  refine ⟨hreg, fun more key type hkey => ?_, fun values hv e he => ?_⟩
  · have hrun : run (empty : Graph α) (calls ++ more) = run (run empty calls) more := by
      rw [run, List.foldl_append]
      rfl
    rw [hrun]
    exact Table.find?_mono (prefix_run _ more) hkey
  · have hob : (run empty calls : Graph α).Obstacle e := by
      rcases he with he | he
      · obtain ⟨e', he', hob⟩ | ⟨factors, hok, -⟩ := linearize_sized hreg hv
        · cases he'.symm.trans he
          exact hob
        · cases hok.symm.trans he
      · exact hessian_sized hreg hv he
    exact ⟨hob, hob.disorder_eq_none⟩

/-- A pixel of landmark 1 in camera 0, whose first number is a hard constraint. -/
def hardPixel : Observation ℚ where
  kind := .cameraLandmark
  measured := Vec.ofFn 2 fun _ => 0
  noise := some (.constrained (.ofVec (Vec.ofFn 2 fun i => i)) 1000)
  keys := [.number 0, .number 1]
  enabled := true
  measured_size := twoKeys.measured_size
  keys_length := twoKeys.keys_length
  noise_rows := by decide

/-- A camera at the origin, and a landmark in front of it. -/
def inFront : Table Key (Tensor ℚ) :=
  Table.ofList [(.number 0, .ofVec (Vec.ofFn 11 fun i => if i < 6 then 0 else 1)),
    (.number 1, .ofVec (Vec.ofFn 3 fun i => i))]

theorem sizedBy_inFront : (run empty [.addObservation hardPixel] : Graph ℚ).SizedBy inFront := by
  intro key type kind hkey hkind
  have hmem : (key, type) ∈ [(Key.number 0, "camera"), (Key.number 1, "landmark3d")] :=
    Table.mem_of_find? hkey
  simp only [List.mem_cons, Prod.mk.injEq, List.not_mem_nil, or_false] at hmem
  rcases hmem with ⟨rfl, rfl⟩ | ⟨rfl, rfl⟩
  · cases (VariableKind.ofName?_name .camera).symm.trans hkind
    exact ⟨_, rfl, rfl⟩
  · cases (VariableKind.ofName?_name .landmark).symm.trans hkind
    exact ⟨_, rfl, rfl⟩

/-- The hard constraint is what keeps the pixel from an information matrix. -/
theorem registry_sound_hardPixel :
    ∃ e, ((run empty [.addObservation hardPixel]).hessian inFront none).value = .error e ∧
      (run empty [.addObservation hardPixel] : Graph ℚ).SizedBy inFront ∧
      (run empty [.addObservation hardPixel] : Graph ℚ).Obstacle e ∧ e.disorder = none ∧
      hardPixel.RegisteredIn (run empty [.addObservation hardPixel] : Graph ℚ).types := by
  have hfails : ((run empty [.addObservation hardPixel]).hessian inFront none).value.toOption.isNone = true := by
    decide +kernel
  cases h : ((run empty [.addObservation hardPixel]).hessian inFront none).value with
  | ok M =>
    rw [h] at hfails
    cases hfails
  | error e =>
    obtain ⟨hreg, -, hsound⟩ := registry_sound [Call.addObservation hardPixel]
    obtain ⟨hob, hd⟩ := hsound inFront sizedBy_inFront e (.inr h)
    exact ⟨e, rfl, sizedBy_inFront, hob, hd, hreg hardPixel (List.mem_singleton_self _)⟩

end Graph
end BundleAdjustment
