import BundleAdjustment.Proofs.Graph.Obstacles
import BundleAdjustment.Proofs.Linear.Packing

/-!
One indexing.

From an ordering of typed unknowns follow a slot table, a list of widths, a layout and the block
matrices of these widths. Each counts places in a loop of its own, and they agree: the position of an
unknown is its slot, its span begins after the widths before it, and its block in the matrix is there
(`Indexing`, `Matches`). A flat step that was solved in the one is therefore applied through the other
to the unknowns that it was solved for, each with its own part of the step (`Steps`, `one_indexing`).
-/
namespace BundleAdjustment
open Solver (asContainer)
open Layout (block size_block gather_of_holds)

/-! ### Tables -/

namespace Table
variable {κ β γ : Type}

theorem entry_of_keys {t : Table κ β} {i : Nat} {k : κ} (h : t.keys[i]? = some k) :
    ∃ v, t.entries[i]? = some (k, v) := by
  rw [keys, List.getElem?_map] at h
  obtain ⟨e, he, rfl⟩ := Option.map_eq_some_iff.mp h
  exact ⟨e.2, he⟩

variable [DecidableEq κ]

/-- Tables with the same keys in the same order, and the same values, are the same. -/
theorem eq_of_find? {t t' : Table κ β} (hk : t.keys = t'.keys) (hf : ∀ k ∈ t.keys, t.find? k = t'.find? k) :
    t = t' := by
  refine eq_of_entries (List.ext_getElem? fun i => ?_)
  cases hi : t.keys[i]? with
  | none =>
    have hi' : t'.keys[i]? = none := hk ▸ hi
    rw [keys, List.getElem?_map, Option.map_eq_none_iff] at hi hi'
    rw [hi, hi']
  | some k =>
    obtain ⟨v, hv⟩ := entry_of_keys hi
    obtain ⟨v', hv'⟩ := entry_of_keys (hk ▸ hi : t'.keys[i]? = some k)
    have hfind := hf k (List.mem_of_getElem? hi)
    rw [find?_of_mem (List.mem_of_getElem? hv), find?_of_mem (List.mem_of_getElem? hv')] at hfind
    rw [hv, hv', Option.some.inj hfind]

section Inserting
variable {ε : Type} {make : κ × β → Except ε γ} {entries : List (κ × β)}

/-- A loop that writes one value for every key has made each of them, and it writes nothing else. -/
theorem of_foldlM_insert (hd : (entries.map Prod.fst).Nodup) {t out : Table κ γ}
    (h : entries.foldlM (fun t e => (t.insert e.1 ·) <$> make e) t = .ok out) :
    (∀ e ∈ entries, ∃ v, make e = .ok v ∧ out.find? e.1 = some v) ∧
      (∀ k, k ∉ entries.map Prod.fst → out.find? k = t.find? k) ∧
      ((∀ e ∈ entries, e.1 ∈ t.keys) → out.keys = t.keys) := by
  induction entries generalizing t with
  | nil =>
    cases h
    refine ⟨?_, fun _ _ => rfl, fun _ => rfl⟩
    intro e he
    cases he
  | cons e rest ih =>
    obtain ⟨hnot, hd⟩ := List.nodup_cons.mp hd
    rw [List.foldlM_cons] at h
    obtain ⟨t₁, h₁, h⟩ := bind_eq_ok.mp h
    cases hv : make e with
    | error _ =>
      rw [hv] at h₁
      cases h₁
    | ok v =>
      rw [hv] at h₁
      cases h₁
      obtain ⟨hmade, hother, hkeys⟩ := ih hd h
      refine ⟨fun u hu => ?_, fun k hk => ?_, fun hin => ?_⟩
      · rcases List.mem_cons.mp hu with rfl | hu
        · exact ⟨v, hv, by rw [hother _ hnot, find?_insert, if_pos rfl]⟩
        · exact hmade u hu
      · rw [List.map_cons, List.mem_cons, not_or] at hk
        rw [hother k hk.2, find?_insert, if_neg (Ne.symm hk.1)]
      · have hsame : (t.insert e.1 v).keys = t.keys := by
          rw [keys_insert, if_pos (hin e (List.mem_cons_self ..))]
        exact (hkeys fun u hu => hsame ▸ hin u (List.mem_cons_of_mem e hu)).trans hsame

theorem exists_foldlM_insert (h : ∀ e ∈ entries, ∃ v, make e = .ok v) (t : Table κ γ) :
    ∃ out, entries.foldlM (fun t e => (t.insert e.1 ·) <$> make e) t = .ok out := by
  induction entries generalizing t with
  | nil => exact ⟨t, rfl⟩
  | cons e rest ih =>
    obtain ⟨v, hv⟩ := h e (List.mem_cons_self ..)
    obtain ⟨out, hout⟩ := ih (fun u hu => h u (List.mem_cons_of_mem e hu)) (t.insert e.1 v)
    refine ⟨out, ?_⟩
    rw [List.foldlM_cons, hv]
    exact hout

end Inserting
end Table

/-! ### Orderings of known unknowns -/

theorem Layout.keys_ofWidths {keys : List Key} {widths : List Count} {l : Layout}
    (h : ofWidths keys widths = .ok l) : l.keys = keys := by
  have hfold : ∀ (pairs : List (Key × Count)) (l₀ : Layout),
      pairs.foldlM (fun l e => l.extend e.1 e.2) l₀ = .ok l → l.keys = l₀.keys ++ pairs.map Prod.fst := by
    intro pairs
    induction pairs with
    | nil =>
      intro l₀ h
      cases h
      exact (List.append_nil _).symm
    | cons e rest ih =>
      intro l₀ h
      rw [List.foldlM_cons] at h
      obtain ⟨l₁, h₁, h⟩ := bind_eq_ok.mp h
      obtain ⟨n, -, hentries⟩ := extend_eq_ok h₁
      rw [ih l₁ h, Layout.keys, Table.keys, hentries, List.map_append, List.append_assoc]
      rfl
  unfold ofWidths at h
  split at h
  · rename_i hlen
    rw [hfold _ _ h, List.map_fst_zip (le_of_eq hlen)]
    rfl
  · cases h

namespace Variable

/-- An unknown with a type that a kind has. -/
def Known (types : Table Key String) (key : Key) : Prop :=
  ∃ type kind, types.find? key = some type ∧ VariableKind.ofName? type = some kind

/-- The slot table, the widths and the layout of an ordering, which count the same places. -/
structure Indexing (ordering : List Key) (types : Table Key String) (table : Table Key Count)
    (ws : List Nat) (l : Layout) : Prop where
  slotTable : slotTable ordering = .ok table
  widths : widths ordering types = .ok ws
  layout : layout ordering types = .ok l
  keys : table.keys = ordering ∧ l.keys = ordering
  /-- The position is the slot; the span has the width of the type, after the widths before it. -/
  position : ∀ (s : Nat) key, ordering[s]? = some key → ∃ type w, types.find? key = some type ∧
    tangentWidth type = .ok w ∧ ws[s]? = some w ∧ table.find? key = some (.whole s) ∧
    l.span key = .ok ((ws.take s).sum, w)
  /-- Spans are apart and leave no place out. -/
  tiles : l.Proper ∧ l.Tiled 0
  size : l.size = ws.sum

section Known
variable {ordering : List Key} {types : Table Key String}

theorem lookUp_eq_ok {β : Type} {t : Table Key β} {key : Key} {v : β} :
    lookUp t key = .ok v ↔ t.find? key = some v := by
  rw [lookUp]
  cases t.find? key <;> simp

theorem tangentWidth_eq_ok {type : String} {w : Nat} :
    tangentWidth type = .ok w ↔ ∃ kind, VariableKind.ofName? type = some kind ∧ w = kind.width := by
  rw [tangentWidth]
  cases VariableKind.ofName? type <;> simp [eq_comm]

theorem tangentWidth_eq {type : String} {kind : VariableKind} (h : VariableKind.ofName? type = some kind) :
    tangentWidth type = .ok kind.width :=
  tangentWidth_eq_ok.mpr ⟨kind, h, rfl⟩

theorem widths_of_known (h : ∀ key ∈ ordering, Known types key) : ∃ ws : List Nat,
    widths ordering types = .ok ws ∧ ws.length = ordering.length ∧ (∀ w ∈ ws, 0 < w) ∧
    ∀ (s : Nat) key, ordering[s]? = some key →
      ∃ type kind, types.find? key = some type ∧ VariableKind.ofName? type = some kind ∧
        ws[s]? = some kind.width := by
  induction ordering with
  | nil =>
    refine ⟨[], rfl, rfl, ?_, ?_⟩
    · intro w hw
      cases hw
    · intro s key hs
      cases hs
  | cons first rest ih =>
    obtain ⟨ws, hws, hlen, hpos, hat⟩ := ih fun key hkey => h key (List.mem_cons_of_mem first hkey)
    obtain ⟨type, kind, htype, hkind⟩ := h first (List.mem_cons_self ..)
    refine ⟨kind.width :: ws, ?_, congrArg Nat.succ hlen, fun w hw => ?_, fun s key hs => ?_⟩
    · have hrest : rest.mapM (fun key => do tangentWidth (← lookUp types key)) = .ok ws := hws
      rw [widths, List.mapM_cons, lookUp_eq_ok.mpr htype, ok_bind, tangentWidth_eq hkind, ok_bind, hrest]
      rfl
    · rcases List.mem_cons.mp hw with rfl | hw
      · exact Graph.width_pos kind
      · exact hpos w hw
    · cases s with
      | zero =>
        cases hs
        exact ⟨type, kind, htype, hkind, rfl⟩
      | succ s => exact hat s key hs

/-- **The loops count alike.** -/
theorem exists_indexing (hd : ordering.Nodup) (h : ∀ key ∈ ordering, Known types key) :
    ∃ table ws l, Indexing ordering types table ws l ∧ ∀ w ∈ ws, 0 < w := by
  obtain ⟨ws, hws, hlen, hpos, hat⟩ := widths_of_known h
  obtain ⟨table, ht, htk⟩ : ∃ table, SlotTable.number Table.empty 0 ordering = .ok table ∧
      table.keys = ordering := SlotTable.keys_number hd
  obtain ⟨-, -, -, hslot, -⟩ := SlotTable.find?_number ht
  have hcounts : ordering.length = (counts ws).length := by rw [counts, List.length_map, hlen]
  obtain ⟨l, hl, hsize, hspan⟩ := Layout.ofWidths_eq_ok hd hcounts (truncate_counts ws)
  have hlaid := Layout.laid_ofWidths hl fun c hc n hn => by
    obtain ⟨w, -, rfl⟩ := List.mem_map.mp hc
    cases hn
    exact Int.natCast_nonneg w
  have hsum : ∀ part : List Nat, (part.map Int.ofNat).sum = (part.sum : Int) := fun part =>
    (Nat.cast_list_sum part).symm
  refine ⟨table, ws, l, ⟨ht, hws, ?_, ⟨htk, Layout.keys_ofWidths hl⟩, fun s key hs => ?_,
    ⟨hlaid.proper le_rfl, hlaid.tiled⟩, hsize.trans (hsum ws)⟩, hpos⟩
  · rw [layout, hws]
    exact hl
  · obtain ⟨type, kind, htype, hkind, hw⟩ := hat s key hs
    refine ⟨type, kind.width, htype, tangentWidth_eq hkind, hw, ?_, ?_⟩
    · rw [hslot s key hs, Nat.cast_zero, zero_add]
    · rw [hspan s key kind.width hs (by rw [List.getElem?_map, hw]; rfl), ← List.map_take, hsum]

end Known

/-! ### The block matrices -/

section Matrices
variable {α : Type} [Scalar α] {ordering : List Key} {types : Table Key String} {table : Table Key Count}
  {ws : List Nat} {l : Layout}

/-- A block matrix that goes by the same places: the block of a slot is where the span of its key is,
and the linear term read there is the slot's part of the last block column. -/
structure Matches (ordering : List Key) (l : Layout) (M : BlockMatrix α) : Prop where
  place : ∀ (s : Nat) key, ordering[s]? = some key → l.span key = .ok (M.offset s, M.width s)
  order : ∃ A, M.information = .ok A ∧ (A.rows : Int) = l.size ∧ (A.cols : Int) = l.size
  linearTerm : ∀ (s : Nat) key, ordering[s]? = some key → ∃ B, M.block s M.lastSlot = .ok B ∧
    l.gather (.ofVec M.linearTerm) key = .ok (B.column 0)

theorem total_eq_sum (ws : List Nat) : BlockMatrix.total ws = ws.sum := rfl

variable {M : BlockMatrix α} (hM : M.widths = ws ++ [1])
include hM

omit [Scalar α] in
theorem offset_eq {s : Nat} (hs : s ≤ ws.length) : M.offset s = (ws.take s).sum := by
  rw [BlockMatrix.offset, hM, List.take_append_of_le_length hs, total_eq_sum]

omit [Scalar α] in
theorem width_eq {s w : Nat} (hs : ws[s]? = some w) : M.width s = w := by
  have hlt := (List.getElem?_eq_some_iff.mp hs).1
  rw [BlockMatrix.width, hM, List.getD_eq_getElem?_getD, List.getElem?_append_left hlt, hs, Option.getD_some]

omit [Scalar α] in
theorem count_eq : M.count = ws.length + 1 := by
  rw [BlockMatrix.count, hM, List.length_append, List.length_singleton]

/-- The places of a block in the linear term are those of its column in the last block column. -/
theorem block_linearTerm {s w : Nat} (hs : ws[s]? = some w) :
    block M.linearTerm (ws.take s).sum w = (M.get s ws.length).column 0 := by
  have hlt : s < ws.length := (List.getElem?_eq_some_iff.mp hs).1
  have hcount := count_eq hM
  have hrows : (M.get s ws.length).rows = w := (BlockMatrix.shape_get M s _).1.trans (width_eq hM hs)
  have hcolumn : ((List.range ws.length).map fun i => (M.get i ws.length).column 0)[s]? =
      some ((M.get s ws.length).column 0) := by
    rw [List.getElem?_map, List.getElem?_range hlt]
    rfl
  refine Vec.ext_get (by rw [size_block, BlockMatrix.size_column, hrows]) fun j hj => ?_
  rw [size_block] at hj
  have hget := BlockMatrix.get_concat hcolumn (r := j) (by rwa [BlockMatrix.size_column, hrows])
  rw [BlockMatrix.sizes_lastColumn (by omega), List.take_take, Nat.min_eq_left hlt.le, hM,
    List.take_append_of_le_length hlt.le, total_eq_sum] at hget
  rw [block, Vec.get_ofFn hj, BlockMatrix.linearTerm, hcount, Nat.add_sub_cancel, hget]

theorem Indexing.matches (h : Indexing ordering types table ws l) : Matches ordering l M where
  place := by
    intro s key hs
    obtain ⟨type, w, -, -, hw, -, hspan⟩ := h.position s key hs
    rw [hspan, offset_eq hM (List.getElem?_eq_some_iff.mp hw).1.le, width_eq hM hw]
  order := by
    have hne : M.widths ≠ [] := by rw [hM]; exact List.append_ne_nil_of_right_ne_nil _ (List.cons_ne_nil _ _)
    have hend : (M.offset (M.count - 1) : Int) = l.size := by
      rw [h.size, count_eq hM, Nat.add_sub_cancel, offset_eq hM le_rfl, List.take_length]
    exact ⟨_, if_neg hne, hend, hend⟩
  linearTerm := by
    intro s key hs
    obtain ⟨type, w, -, -, hw, -, hspan⟩ := h.position s key hs
    have hlt : s < ws.length := (List.getElem?_eq_some_iff.mp hw).1
    have hcount := count_eq hM
    have hlast : M.lastSlot = (ws.length : Int) := by
      rw [BlockMatrix.lastSlot, hcount]
      omega
    have hsize : M.linearTerm.size = l.length := by
      have hlinear := BlockMatrix.size_linearTerm (M := M) (by rw [hM, List.getLast?_concat])
      rw [BlockMatrix.order, hM, BlockMatrix.total_append, total_eq_sum] at hlinear
      rw [Layout.length, h.size, Int.toNat_natCast]
      exact Nat.succ_injective hlinear
    refine ⟨M.get s ws.length, ?_, ?_⟩
    · rw [hlast, BlockMatrix.block_natCast (by omega) (by omega)]
    · rw [gather_of_holds (h.tiles.1.holds hspan) hsize, h.tiles.1.start_eq hspan, Int.toNat_natCast,
        block_linearTerm hM hw]

end Matrices

/-! ### Steps -/

section Steps
variable {α : Type} [Scalar α]

/-- The part of a flat step at a position. -/
def part (ws : List Nat) (x : Vec α) (s : Nat) : Vec α :=
  x.slice (ws.take s).sum ((ws.take s).sum + ws.getD s 0)

/-- The estimate of the unknown at a position after its part of a flat step. -/
def moved (types : Table Key String) (values : Table Key (Tensor α)) (ws : List Nat) (x : Vec α) (s : Nat)
    (key : Key) : Except Fault (Tensor α) := do
  retract (← lookUp types key) (← lookUp values key) (.ofVec (part ws x s))

/-- The estimates after a flat step: the unknowns of the ordering took their parts, the others stayed
as they were, and all of them are in their order. -/
structure Applied (ordering : List Key) (types : Table Key String) (ws : List Nat)
    (values : Table Key (Tensor α)) (x : Vec α) (out : Table Key (Tensor α)) : Prop where
  moved : ∀ (s : Nat) key, ordering[s]? = some key →
    ∃ new, moved types values ws x s key = .ok new ∧ out.find? key = some new
  others : ∀ key, key ∉ ordering → out.find? key = values.find? key
  keys : out.keys = values.keys

/-- Every unknown of an ordering has an estimate of its length. -/
def Sized (ordering : List Key) (types : Table Key String) (values : Table Key (Tensor α)) : Prop :=
  ∀ key ∈ ordering, ∀ type kind, types.find? key = some type → VariableKind.ofName? type = some kind →
    ∃ t, values.find? key = some t ∧ t.shape = [kind.width]

/-- What a flat step that is cut by a layout does to estimates. -/
structure Steps (ordering : List Key) (types : Table Key String) (ws : List Nat) (l : Layout)
    (values : Table Key (Tensor α)) (x : Vec α) (blocks : Table Key (Vec α)) : Prop where
  unpack : l.unpack (.ofVec x) = .ok blocks
  applied : ∀ out, retractAll values types (asContainer blocks) = .ok out ↔
    Applied ordering types ws values x out
  /-- The step fails only where one of the unknowns cannot take its part. -/
  defined : (∃ out, retractAll values types (asContainer blocks) = .ok out) ↔
    ∀ (s : Nat) key, ordering[s]? = some key → ∃ new, Variable.moved types values ws x s key = .ok new
  sized : Sized ordering types values → ∃ out, retractAll values types (asContainer blocks) = .ok out

/-! What each kind does with a step of its width -/

section Retract
variable {v d : Vec α}

theorem append_ofVec (u w : Vec α) : (Tensor.ofVec u).append (.ofVec w) = .ok (.ofVec (u.append w)) := by
  simp only [Tensor.append, Tensor.shape_ofVec, if_true, Tensor.ofFn_singleton, Tensor.get_ofVec]
  rfl

theorem toVec3_ofVec (h : 0 < v.size) : (Tensor.ofVec v).toVec3 = .ok (Vec3.ofVec v) := by
  rw [Tensor.toVec3, Tensor.vec?_ofVec]
  exact if_pos h

theorem exists_motion (h : v.size = poseWidth) : ∃ T, (Tensor.ofVec v).motion = .ok T := by
  have hturn : 0 < (v.slice 3 6).size := by
    rw [Vec.slice, Vec.size_ofFn, h]
    decide
  have hshift : 0 < (v.slice 0 3).size := by
    rw [Vec.slice, Vec.size_ofFn, h]
    decide
  rw [Tensor.motion, Tensor.slice_ofVec, ok_bind, Tensor.rotation, toVec3_ofVec hturn, Tensor.slice_ofVec]
  simp only [ok_bind]
  rw [toVec3_ofVec hshift]
  exact ⟨_, rfl⟩

theorem exists_retract (hv : v.size = poseWidth) (hd : d.size = poseWidth) :
    ∃ p, (Tensor.ofVec v).retract (.ofVec d) = .ok p := by
  obtain ⟨T, hT⟩ := exists_motion hv
  obtain ⟨D, hD⟩ := exists_motion hd
  rw [Tensor.retract, hT, ok_bind, hD]
  exact ⟨_, rfl⟩

theorem manifold_eq {type : String} {kind : VariableKind} (h : VariableKind.ofName? type = some kind) :
    manifold type = kind.manifold := by
  rw [manifold, h]

/-- An estimate of the length of its kind takes a step of that length. -/
theorem exists_retract_of_size {type : String} {kind : VariableKind} (h : VariableKind.ofName? type = some kind)
    (hv : v.size = kind.width) (hd : d.size = kind.width) :
    ∃ new, retract type (.ofVec v) (.ofVec d) = .ok new := by
  rw [retract, manifold_eq h]
  cases kind with
  | pose =>
    obtain ⟨p, hp⟩ := exists_retract hv hd
    exact ⟨.ofVec p.toVec, by simp only [VariableKind.manifold, hp, ok_bind]; rfl⟩
  | landmark => exact ⟨_, Tensor.zipWith_ofVec _ (hv.trans hd.symm)⟩
  | calibration => exact ⟨_, Tensor.zipWith_ofVec _ (hv.trans hd.symm)⟩
  | camera =>
    have hpose : ∀ {u : Vec α}, u.size = cameraWidth → (u.slice 0 poseWidth).size = poseWidth := by
      intro u hu
      rw [Vec.slice, Vec.size_ofFn, hu]
      decide
    have hsame : (v.slice poseWidth v.size).size = (d.slice poseWidth d.size).size := by
      rw [hv, hd, Vec.slice, Vec.slice, Vec.size_ofFn, Vec.size_ofFn, hv, hd]
    obtain ⟨p, hp⟩ := exists_retract (hpose hv) (hpose hd)
    have hrest : (Tensor.ofVec (v.slice poseWidth v.size)).add (.ofVec (d.slice poseWidth d.size)) =
        .ok (.ofVec (v.slice poseWidth v.size + d.slice poseWidth d.size)) := Tensor.zipWith_ofVec _ hsame
    refine ⟨.ofVec (p.toVec.append (v.slice poseWidth v.size + d.slice poseWidth d.size)), ?_⟩
    simp only [VariableKind.manifold, retract.dropFirst, Tensor.slice_ofVec, Tensor.shape_ofVec, List.headD_cons,
      ok_bind, hp, hrest, append_ofVec]

end Retract

/-! The loop over the blocks of a step -/

theorem retractAll_eq (values : Table Key (Tensor α)) (types : Table Key String) (deltas : Table Key (Tensor α)) :
    retractAll values types deltas = deltas.entries.foldlM (fun out e =>
      (out.insert e.1 ·) <$> (do retract (← lookUp types e.1) (← lookUp values e.1) e.2)) values := by
  rw [retractAll]
  congr 1
  funext out e
  cases lookUp types e.1 with
  | error _ => rfl
  | ok type =>
    cases lookUp values e.1 with
    | error _ => rfl
    | ok value =>
      simp only [ok_bind]
      cases retract type value e.2 <;> rfl

theorem slice_eq_block {x : Vec α} {start n : Nat} (h : start + n ≤ x.size) :
    x.slice start (start + n) = block x start n := by
  have hcut : min (start + n) x.size - start = n := by omega
  rw [Vec.slice, hcut, block]

/-- Only one table of estimates is what a step leaves. -/
theorem Applied.unique {ordering : List Key} {types : Table Key String} {ws : List Nat} {x : Vec α}
    {values out out' : Table Key (Tensor α)} (ho : Applied ordering types ws values x out)
    (ho' : Applied ordering types ws values x out') : out = out' := by
  refine Table.eq_of_find? (ho.keys.trans ho'.keys.symm) fun key _ => ?_
  by_cases hkey : key ∈ ordering
  · obtain ⟨s, hs⟩ := List.mem_iff_getElem?.mp hkey
    obtain ⟨new, hnew, hfind⟩ := ho.moved s key hs
    obtain ⟨new', hnew', hfind'⟩ := ho'.moved s key hs
    cases hnew.symm.trans hnew'
    rw [hfind, hfind']
  · rw [ho.others key hkey, ho'.others key hkey]

section Loop
variable {ordering : List Key} {types : Table Key String} {table : Table Key Count} {ws : List Nat} {l : Layout}
  (h : Indexing ordering types table ws l) {x : Vec α} (hx : (x.size : Int) = l.size)
  {values out : Table Key (Tensor α)}
include h hx

/-- The blocks that a flat step is unpacked into are the parts of the positions, in their order. -/
theorem Indexing.unpack_eq : ∃ blocks, l.unpack (.ofVec x) = .ok blocks ∧
    (asContainer blocks).keys = ordering ∧
    ∀ (s : Nat) key, ordering[s]? = some key → (key, .ofVec (part ws x s)) ∈ (asContainer blocks).entries := by
  have hsize : x.size = l.length := by
    rw [Layout.length]
    omega
  refine ⟨_, h.tiles.1.unpack_ofVec hsize, ?_, fun s key hs => ?_⟩
  · rw [asContainer, Table.keys_mapValues, Table.keys_mapValues]
    exact h.keys.2
  · obtain ⟨type, w, -, -, hw, -, hspan⟩ := h.position s key hs
    have hpart : part ws x s = block x (l.start key) w := by
      have hfits := (h.tiles.1.holds hspan).inside
      rw [h.tiles.1.start_eq hspan, Int.toNat_natCast] at hfits ⊢
      rw [part, List.getD_eq_getElem?_getD, hw, Option.getD_some, slice_eq_block (hsize ▸ hfits)]
    have hmem := (Layout.mem_of_span hspan).1
    rw [hpart]
    exact List.mem_map.mpr ⟨_, List.mem_map_of_mem hmem, rfl⟩

theorem Indexing.applied {blocks : Table Key (Vec α)} (hblocks : l.unpack (.ofVec x) = .ok blocks)
    (hout : retractAll values types (asContainer blocks) = .ok out) : Applied ordering types ws values x out := by
  obtain ⟨blocks', hblocks', hkeys, hparts⟩ := h.unpack_eq hx
  cases hblocks.symm.trans hblocks'
  rw [retractAll_eq] at hout
  obtain ⟨hmade, hother, hsame⟩ := Table.of_foldlM_insert (Table.nodup_keys _) hout
  refine ⟨fun s key hs => hmade _ (hparts s key hs), fun key hkey => hother key ?_, hsame fun e he => ?_⟩
  · intro hmem
    exact hkey (hkeys ▸ hmem)
  · obtain ⟨new, hnew, -⟩ := hmade e he
    obtain ⟨type, -, hnew⟩ := bind_eq_ok.mp hnew
    obtain ⟨value, hvalue, -⟩ := bind_eq_ok.mp hnew
    exact List.mem_map.mpr ⟨_, Table.mem_of_find? (lookUp_eq_ok.mp hvalue), rfl⟩

theorem Indexing.exists_retractAll {blocks : Table Key (Vec α)} (hblocks : l.unpack (.ofVec x) = .ok blocks)
    (hall : ∀ (s : Nat) key, ordering[s]? = some key → ∃ new, Variable.moved types values ws x s key = .ok new) :
    ∃ out, retractAll values types (asContainer blocks) = .ok out := by
  obtain ⟨blocks', hblocks', hkeys, hparts⟩ := h.unpack_eq hx
  cases hblocks.symm.trans hblocks'
  rw [retractAll_eq]
  refine Table.exists_foldlM_insert (fun e he => ?_) values
  have hmem : e.1 ∈ ordering := hkeys ▸ List.mem_map_of_mem he
  obtain ⟨s, hs⟩ := List.mem_iff_getElem?.mp hmem
  have hsame := (Table.find?_of_mem he).symm.trans (Table.find?_of_mem (hparts s e.1 hs))
  obtain ⟨new, hnew⟩ := hall s e.1 hs
  rw [Option.some.inj hsame]
  exact ⟨new, hnew⟩

/-- An estimate of the right length takes its part. -/
theorem Indexing.exists_moved (hsized : Sized ordering types values) {s : Nat} {key : Key}
    (hs : ordering[s]? = some key) : ∃ new, Variable.moved types values ws x s key = .ok new := by
  obtain ⟨type, w, htype, hwidth, hw, -, hspan⟩ := h.position s key hs
  obtain ⟨kind, hkind, rfl⟩ := tangentWidth_eq_ok.mp hwidth
  obtain ⟨t, ht, hshape⟩ := hsized key (List.mem_of_getElem? hs) type kind htype hkind
  obtain ⟨v, hv, rfl⟩ := Tensor.eq_ofVec hshape
  have hend : ((ws.take s).sum : Int) + kind.width ≤ l.size :=
    (h.tiles.1.inside _ (Layout.mem_of_span hspan).1).2.2
  have hpart : (part ws x s).size = kind.width := by
    rw [part, List.getD_eq_getElem?_getD, hw, Option.getD_some, slice_eq_block (by omega), size_block]
  rw [Variable.moved, lookUp_eq_ok.mpr htype, ok_bind, lookUp_eq_ok.mpr ht, ok_bind]
  exact exists_retract_of_size hkind hv hpart

theorem Indexing.steps (values : Table Key (Tensor α)) :
    ∃ blocks, Steps ordering types ws l values x blocks := by
  obtain ⟨blocks, hblocks, -, -⟩ := h.unpack_eq hx
  refine ⟨blocks, hblocks, fun out => ⟨h.applied hx hblocks, fun ho => ?_⟩,
    ⟨fun ⟨out, hout⟩ s key hs => ?_, h.exists_retractAll hx hblocks⟩,
    fun hsized => h.exists_retractAll hx hblocks fun s key hs => ?_⟩
  · obtain ⟨out', hout'⟩ := h.exists_retractAll hx hblocks fun s key hs =>
      (ho.moved s key hs).imp fun _ hnew => hnew.1
    rw [hout', ho.unique (h.applied hx hblocks hout')]
  · exact ((h.applied hx hblocks hout).moved s key hs).imp fun _ hnew => hnew.1
  · exact h.exists_moved hx hsized hs

end Loop

/-- Steps that agree at a position move its unknown alike. -/
theorem Applied.find?_congr {ordering : List Key} {types : Table Key String} {ws : List Nat} {x x' : Vec α}
    {values out out' : Table Key (Tensor α)} (ho : Applied ordering types ws values x out)
    (ho' : Applied ordering types ws values x' out') {s : Nat} {key : Key} (hs : ordering[s]? = some key)
    (hpart : part ws x s = part ws x' s) : out.find? key = out'.find? key := by
  obtain ⟨new, hnew, hfind⟩ := ho.moved s key hs
  obtain ⟨new', hnew', hfind'⟩ := ho'.moved s key hs
  rw [Variable.moved, hpart] at hnew
  cases hnew.symm.trans hnew'
  rw [hfind, hfind']

/-- **Slots, widths, spans and blocks are one indexing**, and a flat step moves each unknown of the ordering
by its own part. -/
theorem one_indexing {ordering : List Key} {types : Table Key String} (hd : ordering.Nodup)
    (hk : ∀ key ∈ ordering, Known types key) :
    ∃ table ws l, Indexing ordering types table ws l ∧
      (∃ M : BlockMatrix α, BlockMatrix.ofCounts (counts ws) true = .ok M ∧ M.widths = ws ++ [1]) ∧
      (∀ M : BlockMatrix α, M.widths = ws ++ [1] → Matches ordering l M) ∧
      (∀ (values : Table Key (Tensor α)) (x : Vec α), (x.size : Int) = l.size →
        ∃ blocks, Steps ordering types ws l values x blocks) ∧
      ∀ (values out out' : Table Key (Tensor α)) (x x' : Vec α), Applied ordering types ws values x out →
        Applied ordering types ws values x' out' → ∀ (s : Nat) key, ordering[s]? = some key →
        part ws x s = part ws x' s → out.find? key = out'.find? key := by
  obtain ⟨table, ws, l, h, hpos⟩ := exists_indexing hd hk
  exact ⟨table, ws, l, h, Graph.exists_ofCounts hpos, fun M hM => h.matches hM,
    fun values x hx => h.steps hx values, fun _ _ _ _ _ ho ho' _ _ hs hpart => ho.find?_congr ho' hs hpart⟩

end Steps

def mixedTypes : Table Key String :=
  ⟨[(.number 3, VariableKind.camera.name), (.number 7, VariableKind.landmark.name)], by decide⟩

/-- Estimates of both, and of one more unknown between them. -/
def mixedEstimates : Table Key (Tensor ℚ) :=
  ⟨[(.number 3, .ofVec (Vec.zeros 11)), (.number 5, .ofVec (Vec.zeros 2)), (.number 7, .ofVec (Vec.zeros 3))],
    by decide⟩

theorem sized_mixedEstimates : Sized [.number 7, .number 3] mixedTypes mixedEstimates := by
  intro key hkey type kind htype hkind
  simp only [List.mem_cons, List.not_mem_nil, or_false] at hkey
  rcases hkey with rfl | rfl
  · cases htype
    cases (VariableKind.ofName?_name .landmark).symm.trans hkind
    exact ⟨_, rfl, rfl⟩
  · cases htype
    cases (VariableKind.ofName?_name .camera).symm.trans hkind
    exact ⟨_, rfl, rfl⟩

theorem moved_mixedEstimates :
    Variable.moved mixedTypes mixedEstimates [3, 11] (Vec.ofFn 14 fun i => (i : ℚ)) 0 (.number 7) =
      .ok (.ofVec (Vec.ofFn 3 fun i => (i : ℚ))) := by
  have htype : lookUp mixedTypes (.number 7) = .ok VariableKind.landmark.name := rfl
  have hvalue : lookUp mixedEstimates (.number 7) = .ok (.ofVec (Vec.zeros 3)) := rfl
  have hmanifold : manifold VariableKind.landmark.name = .euclidean := by decide
  have hpart : part [3, 11] (Vec.ofFn 14 fun i => (i : ℚ)) 0 = Vec.ofFn 3 fun i => (i : ℚ) :=
    congrArg Vec.mk (by decide +kernel)
  have hsum : Vec.zeros 3 + Vec.ofFn 3 (fun i => (i : ℚ)) = Vec.ofFn 3 fun i => (i : ℚ) :=
    congrArg Vec.mk (by decide +kernel)
  have hadd : (Tensor.ofVec (Vec.zeros 3)).add (.ofVec (Vec.ofFn 3 fun i => (i : ℚ))) =
      .ok (.ofVec (Vec.zeros 3 + Vec.ofFn 3 fun i => (i : ℚ))) := Tensor.zipWith_ofVec _ rfl
  rw [Variable.moved, htype, ok_bind, hvalue, ok_bind, retract, hmanifold, hpart]
  exact hadd.trans (congrArg (fun v => Except.ok (Tensor.ofVec v)) hsum)

/-- The landmark comes first in the ordering and takes the first part of the step; the third unknown
stays. -/
theorem one_indexing_mixedTypes :
    [Key.number 7, .number 3].Nodup ∧ (∀ key ∈ [Key.number 7, .number 3], Known mixedTypes key) ∧
      ∃ table ws l blocks out, Indexing [.number 7, .number 3] mixedTypes table ws l ∧ l.size = 14 ∧
        l.unpack (.ofVec (Vec.ofFn 14 fun i => (i : ℚ))) = .ok blocks ∧
        retractAll mixedEstimates mixedTypes (asContainer blocks) = .ok out ∧
        out.keys = [.number 3, .number 5, .number 7] ∧
        out.find? (.number 5) = some (.ofVec (Vec.zeros 2)) ∧
        out.find? (.number 7) = some (.ofVec (Vec.ofFn 3 fun i => (i : ℚ))) := by
  have hnodup : [Key.number 7, .number 3].Nodup := by decide
  have hknown : ∀ key ∈ [Key.number 7, .number 3], Known mixedTypes key := by
    intro key hkey
    simp only [List.mem_cons, List.not_mem_nil, or_false] at hkey
    rcases hkey with rfl | rfl
    · exact ⟨_, .landmark, rfl, VariableKind.ofName?_name .landmark⟩
    · exact ⟨_, .camera, rfl, VariableKind.ofName?_name .camera⟩
  obtain ⟨table, ws, l, h, -, -, hsteps, -⟩ := one_indexing (α := ℚ) hnodup hknown
  have hws : ws = [3, 11] := by
    have hwidths : widths [.number 7, .number 3] mixedTypes = .ok [3, 11] := by decide
    cases h.widths.symm.trans hwidths
    rfl
  have hsize : l.size = 14 := by rw [h.size, hws]; rfl
  obtain ⟨blocks, hblocks⟩ := hsteps mixedEstimates (Vec.ofFn 14 fun i => (i : ℚ)) (by rw [hsize]; rfl)
  obtain ⟨out, hout⟩ := hblocks.sized sized_mixedEstimates
  have happlied := (hblocks.applied out).mp hout
  obtain ⟨new, hnew, hfind⟩ := happlied.moved 0 (.number 7) rfl
  refine ⟨hnodup, hknown, table, ws, l, blocks, out, h, hsize, hblocks.unpack, hout, happlied.keys, ?_, ?_⟩
  · rw [happlied.others _ (by decide)]
    rfl
  · rw [hws] at hnew
    cases hnew.symm.trans moved_mixedEstimates
    exact hfind

end Variable
end BundleAdjustment
