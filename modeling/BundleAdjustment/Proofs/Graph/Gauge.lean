import BundleAdjustment.Proofs.Graph.Consistency
import BundleAdjustment.Proofs.Graph.Obstacles
import BundleAdjustment.Proofs.Observation.Invariance
import BundleAdjustment.Proofs.Solver.Curvature

/-!
What the assembled problem cannot know.

Observations say nothing about where the whole scene is, how it is turned and how large it is. The
steps of all unknowns under a similarity, in the order of the blocks, are a direction (`gauge`) that
no factor sees: the information matrix takes it to zero, and it is orthogonal to the linear term
(`gauge_free`).
-/
namespace BundleAdjustment
open Matrix BlockMatrix

namespace Graph
variable {K : Type} [ExactScalar K]

/-- The step of an unknown, from its kind and its estimate; nothing for what has neither. -/
def stepOf (g : Graph K) (σ : Similarity K) (values : Table Key (Tensor K)) (key : Key) : Vec K :=
  match (g.types.find? key).bind VariableKind.ofName?, values.find? key with
  | some kind, some t => σ.step kind t.flatten
  | _, _ => Vec.zeros 0

/-- The steps of the unknowns of an ordering, one after the other. -/
def gauge (g : Graph K) (σ : Similarity K) (values : Table Key (Tensor K)) (ordering : List Key) : Vec K :=
  Vec.concat (ordering.map (g.stepOf σ values))

variable {g : Graph K} {σ : Similarity K} {values : Table Key (Tensor K)}

theorem stepOf_eq {key : Key} {kind : VariableKind} {t : Tensor K}
    (hk : (g.types.find? key).bind VariableKind.ofName? = some kind) (ht : values.find? key = some t) :
    g.stepOf σ values key = σ.step kind t.flatten := by
  rw [stepOf, hk, ht]

theorem size_stepOf (hv : g.SizedBy values) {key : Key} {kind : VariableKind}
    (hk : (g.types.find? key).bind VariableKind.ofName? = some kind) :
    (g.stepOf σ values key).size = kind.width := by
  obtain ⟨type, htype, hkind⟩ := Option.bind_eq_some_iff.mp hk
  obtain ⟨t, ht, -⟩ := hv key type kind htype hkind
  rw [stepOf_eq hk ht, Similarity.size_step]

/-- The steps of an observation's unknowns are those of its estimates. -/
theorem steps_eq {o : Observation K} {vs : List (Tensor K)} (hreg : o.RegisteredIn g.types)
    (hvs : o.estimates values = .ok vs) :
    o.keys.map (g.stepOf σ values) = σ.steps o.kind.unknowns vs := by
  have htyped := hreg.typed
  rw [Observation.estimates_eq_ok] at hvs
  generalize o.keys = keys at htyped hvs
  generalize o.kind.unknowns = kinds at htyped
  induction keys generalizing kinds vs with
  | nil =>
    cases kinds with
    | nil => rfl
    | cons kind kinds => cases htyped
  | cons key rest ih =>
    cases kinds with
    | nil => cases htyped
    | cons kind kinds =>
      cases vs with
      | nil => cases hvs
      | cons t vs =>
        simp only [List.map_cons, List.cons.injEq] at htyped hvs
        have hk : (g.types.find? key).bind VariableKind.ofName? = some kind := by
          rw [htyped.1]
          exact kind.ofName?_name
        rw [List.map_cons, stepOf_eq hk hvs.1, ih hvs.2 kinds htyped.2]
        rfl

section Ordering
variable {keys : List Key} {kinds : List VariableKind}
  (hkinds : keys.map (fun key => (g.types.find? key).bind VariableKind.ofName?) = kinds.map some)
include hkinds

theorem sizes_steps (hv : g.SizedBy values) :
    (keys.map (g.stepOf σ values)).map Vec.size = kinds.map VariableKind.width := by
  induction keys generalizing kinds with
  | nil =>
    cases kinds with
    | nil => rfl
    | cons kind kinds => cases hkinds
  | cons key rest ih =>
    cases kinds with
    | nil => cases hkinds
    | cons kind kinds =>
      simp only [List.map_cons, List.cons.injEq] at hkinds
      rw [List.map_cons, List.map_cons, List.map_cons, size_stepOf hv hkinds.1, ih hkinds.2]

/-- The block of an unknown is its step. -/
theorem block_gauge (hv : g.SizedBy values) {i : Nat} {key : Key} (hi : keys[i]? = some key) :
    Layout.block (g.gauge σ values keys) (total ((kinds.map VariableKind.width).take i))
      (g.stepOf σ values key).size = g.stepOf σ values key := by
  have hstep : (keys.map (g.stepOf σ values))[i]? = some (g.stepOf σ values key) := by
    rw [List.getElem?_map, hi, Option.map_some]
  refine Vec.ext_get (Layout.size_block ..) fun r hr => ?_
  rw [Layout.size_block] at hr
  rw [Layout.block, Vec.get_ofFn hr, ← sizes_steps hkinds hv]
  exact get_concat hstep hr

end Ordering

/-- What is assembled has a slot for each key. -/
theorem slot_of_accumulate {factors : List (LinearFactor K)} {slots : SlotTable} {counts : List Count}
    {M : BlockMatrix K} (hM : BlockMatrix.accumulate (factors.map some) slots counts = .ok M)
    {f : LinearFactor K} (hf : f ∈ factors) (hne : f.isEmpty = false) {key : Key} (hkey : key ∈ f.keys) :
    slots.slot key = .ok (slots.slotOf key) := by
  obtain ⟨table, M₀, ht, hadd⟩ := addTo_of_accumulate hM
  have hslot := LinearFactor.slot_of_addTo hne (hadd f hf) hkey
  rwa [LinearFactor.slot_mapping ht, LinearFactor.slotOf_mapping ht] at hslot

section Assembled
variable {keys : List Key} {kinds : List VariableKind} {factors : List (LinearFactor K)} {l : Layout}
  {M : BlockMatrix K}
  (hkinds : keys.map (fun key => (g.types.find? key).bind VariableKind.ofName?) = kinds.map some)
  (hM : BlockMatrix.accumulate (factors.map some) (.ordering keys)
    (Variable.counts (kinds.map VariableKind.width)) = .ok M)
  (hag : Agrees l (.ordering keys) M.widths)
include hkinds hM hag

theorem size_gauge (hv : g.SizedBy values) : (g.gauge σ values keys).size = l.length := by
  have htotal := hag.length
  rw [widths_of_accumulate hM, total_append] at htotal
  rw [gauge, size_concat, sizes_steps hkinds hv]
  exact Nat.succ_inj.mp htotal

/-- No factor of a registered graph sees the step of the world. -/
theorem spread_gauge (hreg : g.Registered) (hv : g.SizedBy values)
    (hf : (g.linearize values).value = .ok factors) :
    ∀ f ∈ factors, f.spread l.start l.length *ᵥ (g.gauge σ values keys).coords l.length = 0 := by
  intro f hmem
  obtain ⟨o, ho, hof⟩ := exists_of_mem_linearize hf hmem
  obtain ⟨vs, r, jacobians, hvs, hr, -, hfold⟩ := Observation.linearize_eq_some hof
  obtain ⟨vs', hvs', hsized⟩ := Observation.estimates_sized (hreg o ho) hv
  cases hvs.symm.trans hvs'
  obtain ⟨e, he, -⟩ | hnone | ⟨f', hok, -, hfolded⟩ := Observation.linearize_registered (hreg o ho) hv ho hof
  · cases he
  · cases hnone
  cases hok
  have hagree := Solver.agreesOn_of_assembled hM hag f hmem
  have hne := (plain_of_hessian hf hM f hmem).1
  -- Every matrix of the factor is applied to the step of its own unknown.
  have hblock : ∀ t ∈ f.terms.entries,
      Layout.block (g.gauge σ values keys) (l.start t.1) t.2.cols = g.stepOf σ values t.1 := by
    intro t ht
    obtain ⟨kind, htype, hcols⟩ := typed_entries (hreg o ho) hfolded.keys hfolded.widths t ht
    have hkind : (g.types.find? t.1).bind VariableKind.ofName? = some kind := by
      rw [htype]
      exact kind.ofName?_name
    obtain ⟨i, hi, hslot⟩ := SlotTable.slot_ordering
      (slot_of_accumulate hM hmem hne (List.mem_map_of_mem (f := Prod.fst) ht))
    have hlt : i ≤ (kinds.map VariableKind.width).length := by
      have hlen := congrArg List.length hkinds
      rw [List.length_map, List.length_map] at hlen
      rw [List.length_map, ← hlen]
      exact le_of_lt (List.getElem?_eq_some_iff.mp hi).1
    have hstart : l.start t.1 = total ((kinds.map VariableKind.width).take i) := by
      rw [hagree.start t ht, SlotTable.start, hslot, Int.toNat_natCast, widths_of_accumulate hM,
        List.take_append_of_le_length hlt]
    rw [hstart, hcols, ← size_stepOf (σ := σ) hv hkind]
    exact block_gauge hkinds hv hi
  funext k
  rw [LinearFactor.spread_mulVec_apply hagree.inLayout, List.map_congr_left fun t ht => by rw [hblock t ht]]
  exact Observation.step_fold σ hsized hr hfold (steps_eq (hreg o ho) hvs) k.isLt

end Assembled

/-- **Gauge freedom.** For a graph that was built call by call, with an estimate of the right length for
every unknown, and any ordering that has an information matrix: the steps of all unknowns under a
shift, a turn and a growth of the world are taken to zero by the information matrix, and are orthogonal
to the linear term. -/
theorem gauge_free (calls : List (Call K)) (σ : Similarity K) {values : Table Key (Tensor K)}
    {ordering : Option (List Key)} {M : BlockMatrix K} (hv : (run empty calls : Graph K).SizedBy values)
    (h : ((run empty calls).hessian values ordering).value = .ok M) :
    ∃ I v, M.information = .ok I ∧
      v = (run empty calls).gauge σ values (ordering.getD (run empty calls : Graph K).keys) ∧
      v.size = I.cols ∧ I.mulVec v = Vec.zeros I.rows ∧ M.linearTerm.dot v = 0 := by
  have hreg : (run empty calls : Graph K).Registered := registered_run_empty calls
  revert hv h hreg
  generalize (run empty calls : Graph K) = g
  intro hv h hreg
  obtain ⟨factors, kinds, hf, hkinds, -, hM⟩ := hessian_eq_ok h
  obtain ⟨l, -, -, hag⟩ := layout_of_accumulate hM
  obtain ⟨I, hI, hrows, hcols, hmatrix⟩ := Solver.information_eq_hessianSum hM hag
  obtain ⟨hsize, hterm⟩ := Solver.linearTerm_eq_rhsSum hM hag
  have hgauge := size_gauge (σ := σ) hkinds hM hag hv
  obtain ⟨hflat, horth⟩ := Solver.hessianSum_of_slopes l
    (p := (g.gauge σ values (ordering.getD g.keys)).coords l.length) fun f hmem => by
      rw [LinearFactor.slope, spread_gauge hkinds hM hag hreg hv hf f hmem, mulVec_zero]
  refine ⟨I, _, hI, rfl, hgauge.trans hcols.symm, ?_, ?_⟩
  · refine Vec.eq_of_coords ((Mat.size_mulVec ..).trans hrows) ((Vec.size_zeros _).trans hrows) ?_
    rw [Mat.coords_mulVec hrows hcols, hmatrix, hflat, hrows, Vec.coords_zeros]
  · rw [Vec.dot_eq hsize, hterm, dotProduct_comm, horth]

/-- One landmark in a camera, and a pose and a calibration that nothing is seen with yet. -/
def oneLandmark : List (Call ℚ) :=
  [.addObservation (pixelOf 1 true), .addVariable (.number 2) "pose_se3", .addVariable (.number 3) "cal3_s2"]

/-- The camera and the pose stand apart and look along the same axis. -/
def apart : Table Key (Tensor ℚ) :=
  Table.ofList [(.number 0, .ofVec (Vec.ofFn 11 fun i => if i < 3 then i else if i < 6 then 0 else 1)),
    (.number 1, .ofVec (Vec.ofFn 3 fun i => 2 * i + 1)),
    (.number 2, .ofVec (Vec.ofFn 6 fun i => if i < 3 then 1 - i else 0)),
    (.number 3, .ofVec (Vec.ofFn 5 fun i => i + 1))]

theorem sizedBy_apart : (run empty oneLandmark : Graph ℚ).SizedBy apart := by
  intro key type kind hkey hkind
  have hmem : (key, type) ∈ [(Key.number 0, "camera"), (Key.number 1, "landmark3d"),
      (Key.number 2, "pose_se3"), (Key.number 3, "cal3_s2")] := Table.mem_of_find? hkey
  simp only [List.mem_cons, Prod.mk.injEq, List.not_mem_nil, or_false] at hmem
  rcases hmem with ⟨rfl, rfl⟩ | ⟨rfl, rfl⟩ | ⟨rfl, rfl⟩ | ⟨rfl, rfl⟩
  · cases (VariableKind.ofName?_name .camera).symm.trans hkind
    exact ⟨_, rfl, rfl⟩
  · cases (VariableKind.ofName?_name .landmark).symm.trans hkind
    exact ⟨_, rfl, rfl⟩
  · cases (VariableKind.ofName?_name .pose).symm.trans hkind
    exact ⟨_, rfl, rfl⟩
  · cases (VariableKind.ofName?_name .calibration).symm.trans hkind
    exact ⟨_, rfl, rfl⟩

/-- The scene is shifted, turned and enlarged, and the blocks are not in the order of registration. -/
theorem gauge_free_oneLandmark :
    ∃ (M : BlockMatrix ℚ) (I : Mat ℚ) (v : Vec ℚ),
      ((run empty oneLandmark).hessian apart (some [.number 3, .number 1, .number 0, .number 2])).value =
        .ok M ∧ M.information = .ok I ∧ v.size = 25 ∧ I.cols = 25 ∧ v.get 5 = -4 ∧
      I.mulVec v = Vec.zeros I.rows ∧ M.linearTerm.dot v = 0 := by
  have hok : ((run empty oneLandmark).hessian apart
      (some [.number 3, .number 1, .number 0, .number 2])).value.toOption.isSome = true := by
    decide +kernel
  obtain ⟨M, hM⟩ := Option.isSome_iff_exists.mp hok
  have hM := toOption_eq_some.mp hM
  obtain ⟨I, _, hI, rfl, hsize, hflat, horth⟩ :=
    gauge_free oneLandmark ⟨⟨1, 2, 3⟩, ⟨-1, 0, 2⟩, 1⟩ sizedBy_apart hM
  have hv : ((run empty oneLandmark : Graph ℚ).gauge ⟨⟨1, 2, 3⟩, ⟨-1, 0, 2⟩, 1⟩ apart
      [.number 3, .number 1, .number 0, .number 2]).size = 25 := by decide +kernel
  have hget : ((run empty oneLandmark : Graph ℚ).gauge ⟨⟨1, 2, 3⟩, ⟨-1, 0, 2⟩, 1⟩ apart
      [.number 3, .number 1, .number 0, .number 2]).get 5 = -4 := by decide +kernel
  exact ⟨M, I, _, hM, hI, hv, hsize.symm.trans hv, hget, hflat, horth⟩

end Graph
end BundleAdjustment
