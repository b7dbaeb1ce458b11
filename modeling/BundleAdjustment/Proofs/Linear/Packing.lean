import BundleAdjustment.Proofs.Linear.Bounds
import BundleAdjustment.Proofs.Linear.Quadratic
import BundleAdjustment.Proofs.Solver.Operators

/-!
Flat buffers and the blocks that they are packed from.

A layout is built by giving one new key after the other the places behind those that are taken (`Laid`),
so that its spans are apart and leave no place out from the first one on (`Tiled`). A block that is
packed therefore comes back when its key is read and no other key sees it. Packing and unpacking undo
each other but for the places before the first span, which no key reads, and each is the transpose of
the other (`packs_of_built`).
-/
namespace BundleAdjustment.Layout
open Solver (asContainer)

/-! ### Layouts that are built -/

/-- One fresh key after the other is given the next places, the first of them those from `first` on. -/
inductive Laid (first : Int) : Layout → Prop
  | nil : Laid first ⟨Table.empty, first⟩
  | next {spans : Table Key (Int × Int)} {size n : Int} {key : Key} (before : Laid first ⟨spans, size⟩)
      (fresh : key ∉ spans.keys) (width : 0 ≤ n) : Laid first ⟨spans.insert key (size, n), size + n⟩

theorem Laid.foldlM {pairs : List (Key × Count)} {first : Int} {l₀ l : Layout} (h₀ : Laid first l₀)
    (hn : ∀ e ∈ pairs, ∀ n, e.2.truncate = .ok n → 0 ≤ n)
    (h : pairs.foldlM (fun l e => l.extend e.1 e.2) l₀ = .ok l) : Laid first l := by
  induction pairs generalizing l₀ with
  | nil =>
    cases h
    exact h₀
  | cons e rest ih =>
    rw [List.foldlM_cons] at h
    obtain ⟨l₁, h₁, h⟩ := bind_eq_ok.mp h
    refine ih ?_ (fun e he => hn e (List.mem_cons_of_mem _ he)) h
    unfold extend at h₁
    split at h₁
    · cases h₁
    · rename_i hnew
      obtain ⟨n, hw, h₁⟩ := bind_eq_ok.mp h₁
      rw [← pure_eq_ok.mp h₁]
      exact h₀.next (fun hmem => hnew (Table.contains_iff.mpr hmem)) (hn e (List.mem_cons_self ..) n hw)

theorem laid_ofWidths {keys : List Key} {widths : List Count} {l : Layout} (h : ofWidths keys widths = .ok l)
    (hn : ∀ w ∈ widths, ∀ n, w.truncate = .ok n → 0 ≤ n) : Laid 0 l := by
  unfold ofWidths at h
  split at h
  · exact Laid.nil.foldlM (fun e he => hn e.2 (List.of_mem_zip he).2) h
  · cases h

/-- The keys between offsets are numbers in turn, so that each of them is fresh. -/
theorem Laid.betweenOffsets {offsets : List Int} {spans : Table Key (Int × Int)} {next : Nat}
    {first a : Int} {l : Layout} (h₀ : Laid first ⟨spans, a⟩)
    (hnew : ∀ key ∈ spans.keys, ∃ n < next, key = .number n)
    (h : betweenOffsets spans next (a :: offsets) = .ok l) : Laid first l := by
  induction offsets generalizing spans next a with
  | nil =>
    cases h
    exact h₀
  | cons b rest ih =>
    unfold Layout.betweenOffsets at h
    split at h
    · cases h
    · rename_i hle
      have hkey : Key.number next ∉ spans.keys := by
        intro hmem
        obtain ⟨n, hlt, hn⟩ := hnew _ hmem
        cases hn
        omega
      have hins := h₀.next hkey (Int.sub_nonneg_of_le (not_lt.mp hle))
      rw [add_sub_cancel] at hins
      refine ih hins (fun key hmem => ?_) h
      rw [Table.keys_insert, if_neg hkey, List.mem_append, List.mem_singleton] at hmem
      rcases hmem with hmem | rfl
      · obtain ⟨n, hlt, hn⟩ := hnew key hmem
        exact ⟨n, by omega, hn⟩
      · exact ⟨next, by omega, rfl⟩

theorem laid_ofOffsets {offsets : List Count} {first : Int} {l : Layout} (h : ofOffsets offsets = .ok l)
    (hfirst : offsets.head?.elim (.ok 0) Count.truncate = .ok first) : Laid first l := by
  obtain ⟨given, hg, hb⟩ := bind_eq_ok.mp h
  have hmap := mapM_eq_ok.mp hg
  cases offsets with
  | nil =>
    rw [List.map_nil, eq_comm, List.map_eq_nil_iff] at hmap
    subst hmap
    cases hb
    cases hfirst
    exact .nil
  | cons w rest =>
    cases given with
    | nil => cases hmap
    | cons a given =>
      rw [List.map_cons, List.map_cons, List.cons.injEq] at hmap
      cases hfirst.symm.trans hmap.1
      refine Laid.nil.betweenOffsets (fun key hkey => ?_) hb
      cases hkey

/-- The ways to build a layout whose spans begin at `first`: of widths that are not negative, or of
offsets, the first of which is not; without offsets there are no places. -/
inductive Built : Layout → Nat → Prop
  | widths {keys : List Key} {widths : List Count} {l : Layout} (built : ofWidths keys widths = .ok l)
      (nonneg : ∀ w ∈ widths, ∀ n, w.truncate = .ok n → 0 ≤ n) : Built l 0
  | offsets {offsets : List Count} {l : Layout} {first : Nat} (built : ofOffsets offsets = .ok l)
      (begins : offsets.head?.elim (.ok 0) Count.truncate = .ok (first : Int)) : Built l first

theorem Built.laid {l : Layout} {first : Nat} (h : l.Built first) : Laid first l := by
  cases h with
  | widths built nonneg => exact laid_ofWidths built nonneg
  | offsets built begins => exact laid_ofOffsets built begins

/-- No span begins before `first`, and every place from there on has a key. -/
structure Tiled (l : Layout) (first : Int) : Prop where
  first_le : first ≤ l.size
  begins : ∀ e ∈ l.spans.entries, first ≤ e.2.1
  covered : ∀ p, first ≤ p → p < l.size → ∃ e ∈ l.spans.entries, e.2.1 ≤ p ∧ p < e.2.1 + e.2.2

theorem Tiled.insert {spans : Table Key (Int × Int)} {size n first : Int} (h : Tiled ⟨spans, size⟩ first)
    {key : Key} (hkey : key ∉ spans.keys) (hn : 0 ≤ n) :
    Tiled ⟨spans.insert key (size, n), size + n⟩ first := by
  have hsize : first ≤ size := h.first_le
  have hentries : (spans.insert key (size, n)).entries = spans.entries ++ [(key, (size, n))] :=
    Table.write_of_not_mem _ hkey
  refine ⟨le_add_of_le_of_nonneg hsize hn, fun e he => ?_, fun p hle hlt => ?_⟩
  · rcases Table.mem_insert he with rfl | he
    · exact hsize
    · exact h.begins e he
  · rw [hentries]
    rcases lt_or_ge p size with hp | hp
    · obtain ⟨e, he, hin⟩ := h.covered p hle hp
      exact ⟨e, List.mem_append_left _ he, hin⟩
    · exact ⟨(key, (size, n)), List.mem_append_right _ (List.mem_singleton_self _), hp, hlt⟩

theorem Laid.tiled {first : Int} {l : Layout} (h : Laid first l) : Tiled l first := by
  induction h with
  | nil =>
    refine ⟨le_rfl, fun _ he => ?_, fun _ hle hlt => absurd hlt (not_lt.mpr hle)⟩
    cases he
  | next _ fresh width ih => exact ih.insert fresh width

theorem Laid.proper {first : Int} {l : Layout} (hfirst : 0 ≤ first) (h : Laid first l) : l.Proper := by
  induction h with
  | nil => exact proper_nil hfirst
  | next _ _ width ih => exact ih.insert _ width

theorem Built.tiled {l : Layout} {first : Nat} (h : l.Built first) : Tiled l first := h.laid.tiled

theorem Built.proper {l : Layout} {first : Nat} (h : l.Built first) : l.Proper :=
  h.laid.proper (Int.natCast_nonneg first)

theorem Proper.sound {l : Layout} (h : l.Proper) {e : Key × (Int × Int)} (he : e ∈ l.spans.entries) :
    Sound e.2 :=
  ⟨(h.inside e he).2.1, fun _ => (h.inside e he).1⟩

theorem Proper.holds_of_mem {l : Layout} (h : l.Proper) {e : Key × (Int × Int)} (he : e ∈ l.spans.entries) :
    l.Holds e.1 e.2.2.toNat := by
  have hspan := span_of_mem he
  rw [← Prod.mk.eta (p := e.2), ← Int.toNat_of_nonneg (h.inside e he).2.1] at hspan
  exact h.holds hspan

variable {l : Layout}

/-! ### Reading every block -/

section Reading
variable {α : Type}

theorem foldlM_insert {gather : Key → Except Fault (Vec α)} (value : Key → Int × Int → Vec α)
    {entries : List (Key × (Int × Int))} (h : ∀ e ∈ entries, gather e.1 = .ok (value e.1 e.2))
    (t : Table Key (Vec α)) (hd : (t.keys ++ entries.map Prod.fst).Nodup) :
    ∃ t', (entries.map Prod.fst).foldlM (fun t key => return t.insert key (← gather key)) t = Except.ok t' ∧
      t'.entries = t.entries ++ entries.map fun e => (e.1, value e.1 e.2) := by
  induction entries generalizing t with
  | nil => exact ⟨t, rfl, (List.append_nil _).symm⟩
  | cons e rest ih =>
    have hfresh : e.1 ∉ t.keys := by
      intro hmem
      exact (List.nodup_append.mp hd).2.2 e.1 hmem e.1 (by simp) rfl
    have hkeys : (t.insert e.1 (value e.1 e.2)).keys = t.keys ++ [e.1] := by
      rw [Table.keys_insert, if_neg hfresh]
    have hentries : (t.insert e.1 (value e.1 e.2)).entries = t.entries ++ [(e.1, value e.1 e.2)] :=
      Table.write_of_not_mem _ hfresh
    obtain ⟨t', ht', hrest⟩ := ih (fun u hu => h u (List.mem_cons_of_mem e hu))
      (t.insert e.1 (value e.1 e.2)) (by rwa [hkeys, List.append_assoc])
    refine ⟨t', ?_, ?_⟩
    · rw [List.map_cons, List.foldlM_cons, h e (List.mem_cons_self ..)]
      exact ht'
    · rw [hrest, hentries, List.append_assoc]
      rfl

/-- A buffer of the layout's length is unpacked into the block of every key, in the layout's order. -/
theorem Proper.unpack_ofVec [Scalar α] (hl : l.Proper) {x : Vec α} (hx : x.size = l.length) :
    l.unpack (.ofVec x) = .ok (l.spans.mapValues fun key s => block x (l.start key) s.2.toNat) := by
  have hgather : ∀ e ∈ l.spans.entries,
      l.gather (.ofVec x) e.1 = .ok (block x (l.start e.1) e.2.2.toNat) :=
    fun e he => gather_of_holds (hl.holds_of_mem he) hx
  obtain ⟨t, ht, hentries⟩ := foldlM_insert (fun key s => block x (l.start key) s.2.toNat) hgather Table.empty
    l.spans.distinct
  rw [unpack, keys, Table.keys, ht]
  exact congrArg Except.ok (Table.eq_of_entries hentries)

end Reading

variable {K : Type} [ExactScalar K]

/-! ### Adding blocks -/

section Adding
variable {start : Key → Nat} {x y v : Vec K} {first p : Nat}

theorem get_addBlock_inside {j : Nat} (h : first + v.size ≤ y.size) (hj : j < v.size) :
    (addBlock y first v).get (first + j) = y.get (first + j) + v.get j := by
  rw [addBlock, Vec.get_ofFn (by omega), if_pos (by omega), Nat.add_sub_cancel_left]

theorem get_addBlock_outside (hp : ¬ (first ≤ p ∧ p < first + v.size)) :
    (addBlock y first v).get p = y.get p := by
  rcases Nat.lt_or_ge p y.size with h | h
  · rw [addBlock, Vec.get_ofFn h, if_neg hp]
  · rw [Vec.get_of_size_le h, Vec.get_of_size_le (by rwa [size_addBlock])]

/-- What a block adds to an inner product is its own with the block that is read there. -/
theorem dot_addBlock (h : first + v.size ≤ y.size) :
    (addBlock y first v).dot x = y.dot x + v.dot (block x first v.size) := by
  rw [Vec.dot, Vec.dot, Vec.dot, size_addBlock, Scalar.sum_eq_range, Scalar.sum_eq_range, Scalar.sum_eq_range]
  have hplaces : ∀ p ∈ Finset.range y.size, (addBlock y first v).get p * x.get p = y.get p * x.get p +
      if first ≤ p ∧ p < first + v.size then v.get (p - first) * x.get p else 0 := by
    intro p hp
    rw [addBlock, Vec.get_ofFn (Finset.mem_range.mp hp)]
    split
    · rw [add_mul]
    · rw [add_zero]
  rw [Finset.sum_congr rfl hplaces, Finset.sum_add_distrib, sum_window h]
  congr 1
  refine Finset.sum_congr rfl fun j hj => ?_
  rw [Nat.add_sub_cancel_left, block, Vec.get_ofFn (Finset.mem_range.mp hj)]

/-- One buffer is another with each block added at its place. -/
structure Added (start : Key → Nat) (blocks : List (Key × Vec K)) (y y' : Vec K) : Prop where
  size : y'.size = y.size
  inside : ∀ e ∈ blocks, ∀ j < e.2.size, y'.get (start e.1 + j) = y.get (start e.1 + j) + e.2.get j
  outside : ∀ p, (∀ e ∈ blocks, ¬ (start e.1 ≤ p ∧ p < start e.1 + e.2.size)) → y'.get p = y.get p
  dot : ∀ x : Vec K, y'.dot x = y.dot x + (blocks.map fun e => e.2.dot (block x (start e.1) e.2.size)).sum

theorem Added.refl (start : Key → Nat) (y : Vec K) : Added start [] y y where
  size := rfl
  inside := fun _ he => nomatch he
  outside := fun _ _ => rfl
  dot := fun _ => (add_zero _).symm

/-- A block may be added first if none of the others meets it. -/
theorem Added.cons {e : Key × Vec K} {rest : List (Key × Vec K)} {y y' : Vec K}
    (hfit : start e.1 + e.2.size ≤ y.size)
    (hapart : ∀ u ∈ rest, ∀ p, start e.1 ≤ p ∧ p < start e.1 + e.2.size →
      ¬ (start u.1 ≤ p ∧ p < start u.1 + u.2.size))
    (h : Added start rest (addBlock y (start e.1) e.2) y') : Added start (e :: rest) y y' where
  size := h.size.trans (size_addBlock ..)
  inside := by
    intro u hu j hj
    rcases List.mem_cons.mp hu with rfl | hu
    · rw [h.outside _ fun w hw => hapart w hw _ ⟨by omega, by omega⟩, get_addBlock_inside hfit hj]
    · rw [h.inside u hu j hj, get_addBlock_outside]
      intro hin
      exact hapart u hu _ hin ⟨by omega, by omega⟩
  outside := by
    intro p hp
    rw [h.outside p fun u hu => hp u (List.mem_cons_of_mem e hu),
      get_addBlock_outside (hp e (List.mem_cons_self ..))]
  dot := by
    intro x
    rw [h.dot, dot_addBlock hfit, List.map_cons, List.sum_cons, add_assoc]

/-- Which blocks there are decides the buffer, and not their order. -/
theorem Added.unique {blocks blocks' : List (Key × Vec K)} {y z z' : Vec K} (h : Added start blocks y z)
    (h' : Added start blocks' y z') (hmem : ∀ e, e ∈ blocks ↔ e ∈ blocks') : z = z' := by
  refine Vec.ext_get (h.size.trans h'.size.symm) fun p _ => ?_
  by_cases hp : ∃ e ∈ blocks, start e.1 ≤ p ∧ p < start e.1 + e.2.size
  · obtain ⟨e, he, hle, hlt⟩ := hp
    obtain ⟨j, rfl⟩ := Nat.exists_eq_add_of_le hle
    have hj : j < e.2.size := by omega
    rw [h.inside e he j hj, h'.inside e ((hmem e).mp he) j hj]
  · rw [h.outside p fun e he hin => hp ⟨e, he, hin⟩,
      h'.outside p fun e he hin => hp ⟨e, (hmem e).mpr he, hin⟩]

end Adding

/-! ### Packing -/

/-- Vectors for keys of the layout, each as long as its key's block. -/
def Takes (l : Layout) (d : Table Key (Vec K)) : Prop :=
  ∀ e ∈ d.entries, ∃ o, l.span e.1 = .ok (o, (e.2.size : Int))

/-- The loop that packs adds each block at its place. -/
theorem foldlM_scatterAdd (hl : l.Proper) {blocks : List (Key × Vec K)} (hd : (blocks.map Prod.fst).Nodup)
    (hb : ∀ e ∈ blocks, l.Holds e.1 e.2.size) {y : Vec K} (hy : y.size = l.length) :
    ∃ y', (blocks.map fun e => (e.1, Tensor.ofVec e.2)).foldlM
        (fun y e => l.scatterAdd (.ofVec y) e.1 e.2) y = .ok y' ∧ Added l.start blocks y y' := by
  induction blocks generalizing y with
  | nil => exact ⟨y, rfl, .refl _ y⟩
  | cons e rest ih =>
    obtain ⟨hnot, hd⟩ := List.nodup_cons.mp hd
    have he := hb e (List.mem_cons_self ..)
    obtain ⟨y', hy', hadded⟩ := ih hd (fun u hu => hb u (List.mem_cons_of_mem e hu))
      ((size_addBlock y (l.start e.1) e.2).trans hy)
    refine ⟨y', ?_, hadded.cons (hy.symm ▸ he.inside) fun u hu p hin hin' => ?_⟩
    · rw [List.map_cons, List.foldlM_cons, scatterAdd_of_holds he hy]
      exact hy'
    · have hkey := hl.eq_of_place he (hb u (List.mem_cons_of_mem e hu)) hin hin'
      exact hnot (hkey ▸ List.mem_map_of_mem hu)

omit [ExactScalar K] in
theorem Takes.holds (hl : l.Proper) {d : Table Key (Vec K)} (hd : l.Takes d) {e : Key × Vec K}
    (he : e ∈ d.entries) : l.Holds e.1 e.2.size := by
  obtain ⟨o, hspan⟩ := hd e he
  exact hl.holds hspan

theorem Takes.pack_eq (hl : l.Proper) {d : Table Key (Vec K)} (hd : l.Takes d) :
    ∃ y, l.pack (asContainer d) = .ok y ∧ Added l.start d.entries (Vec.zeros l.length) y := by
  obtain ⟨y, hy, hadded⟩ := foldlM_scatterAdd hl d.distinct (fun e he => hd.holds hl he)
    (Vec.size_zeros l.length)
  refine ⟨y, ?_, hadded⟩
  rw [pack, Solver.zeros_eq hl.size_nonneg, ok_bind]
  exact hy

/-- The blocks of all keys: those that are given, and zeros for the others. -/
def completed (l : Layout) (d : Table Key (Vec K)) : Table Key (Vec K) :=
  l.spans.mapValues fun key s => (d.find? key).getD (Vec.zeros s.2.toNat)

/-- Blocks for all keys need no zeros. -/
theorem Takes.find?_completed {d : Table Key (Vec K)} (hd : l.Takes d) (hall : ∀ key ∈ l.keys, key ∈ d.keys)
    (key : Key) : (l.completed d).find? key = d.find? key := by
  rw [completed, Table.find?_mapValues]
  cases hfind : d.find? key with
  | some v =>
    obtain ⟨o, hspan⟩ := hd _ (Table.mem_of_find? hfind)
    rw [Table.find?_of_mem (mem_of_span hspan).1]
    rfl
  | none =>
    have hnot : key ∉ l.keys := fun hmem => Table.find?_eq_none_iff.mp hfind (hall key hmem)
    rw [Table.find?_eq_none_iff.mpr hnot]
    rfl

/-- A key reads its own block of what was packed, or zeros. -/
theorem Takes.block_packed (hl : l.Proper) {d : Table Key (Vec K)} (hd : l.Takes d) {y : Vec K}
    (hy : Added l.start d.entries (Vec.zeros l.length) y) {e : Key × (Int × Int)} (he : e ∈ l.spans.entries) :
    block y (l.start e.1) e.2.2.toNat = (d.find? e.1).getD (Vec.zeros e.2.2.toNat) := by
  cases hfind : d.find? e.1 with
  | some v =>
    have hmem := Table.mem_of_find? hfind
    obtain ⟨o, hspan⟩ := hd _ hmem
    have hwidth : e.2 = (o, (v.size : Int)) := Except.ok.inj ((span_of_mem he).symm.trans hspan)
    rw [hwidth, Option.getD_some, Int.toNat_natCast]
    refine Vec.ext_get (size_block ..) fun j hj => ?_
    rw [size_block] at hj
    rw [block, Vec.get_ofFn hj, hy.inside _ hmem j hj, Vec.get_zeros, zero_add]
  | none =>
    refine Vec.ext_get (by rw [size_block, Option.getD_none, Vec.size_zeros]) fun j hj => ?_
    rw [size_block] at hj
    rw [Option.getD_none, Vec.get_zeros, block, Vec.get_ofFn hj, hy.outside, Vec.get_zeros]
    intro u hu hin
    have hkey := hl.eq_of_place (hl.holds_of_mem he) (hd.holds hl hu) ⟨by omega, by omega⟩ hin
    rw [hkey, Table.find?_of_mem hu] at hfind
    cases hfind

theorem Takes.unpack_packed (hl : l.Proper) {d : Table Key (Vec K)} (hd : l.Takes d) {y : Vec K}
    (hy : Added l.start d.entries (Vec.zeros l.length) y) : l.unpack (.ofVec y) = .ok (l.completed d) := by
  rw [hl.unpack_ofVec (hy.size.trans (Vec.size_zeros _))]
  refine congrArg Except.ok (Table.eq_of_entries (List.map_congr_left fun e he => ?_))
  exact congrArg (Prod.mk e.1) (hd.block_packed hl hy he)

/-- The same numbers, with zeros before a place. -/
def clearBefore (first : Nat) (x : Vec K) : Vec K := Vec.ofFn x.size fun p => if p < first then 0 else x.get p

theorem clearBefore_zero (x : Vec K) : clearBefore 0 x = x := by
  refine Vec.ext_get (Vec.size_ofFn ..) fun p hp => ?_
  rw [clearBefore, Vec.size_ofFn] at hp
  rw [clearBefore, Vec.get_ofFn hp, if_neg (Nat.not_lt_zero p)]

section Unpacked
variable {x : Vec K}

theorem takes_unpacked (hl : l.Proper) (x : Vec K) :
    l.Takes (l.spans.mapValues fun key s => block x (l.start key) s.2.toNat) := by
  intro u hu
  obtain ⟨e, he, rfl⟩ := List.mem_map.mp hu
  refine ⟨e.2.1, ?_⟩
  rw [span_of_mem he, size_block, Int.toNat_of_nonneg (hl.inside e he).2.1]

/-- The blocks of a buffer make it up, from the first span on. -/
theorem Tiled.added_unpacked {first : Nat} (ht : Tiled l first) (hl : l.Proper) (hx : x.size = l.length) :
    ∀ y, Added l.start (l.spans.mapValues fun key s => block x (l.start key) s.2.toNat).entries
      (Vec.zeros l.length) y → y = clearBefore first x := by
  intro y hy
  have hsize : y.size = x.size := hy.size.trans ((Vec.size_zeros _).trans hx.symm)
  refine Vec.ext_get (hsize.trans (Vec.size_ofFn ..).symm) fun p hp => ?_
  rw [clearBefore, Vec.get_ofFn (hsize ▸ hp)]
  have hstart : ∀ e ∈ l.spans.entries, (l.start e.1 : Int) = e.2.1 := by
    intro e he
    rw [hl.start_eq (span_of_mem he), Int.toNat_of_nonneg (hl.inside e he).1]
  split
  · rename_i hbefore
    rw [hy.outside, Vec.get_zeros]
    intro u hu hin
    obtain ⟨e, he, rfl⟩ := List.mem_map.mp hu
    have hbegins := ht.begins e he
    have := hstart e he
    have hle : l.start e.1 ≤ p := hin.1
    omega
  · rename_i hbehind
    have hp : (p : Int) < l.size := by
      have hlength : l.length = l.size.toNat := rfl
      omega
    obtain ⟨e, he, hle, hlt⟩ := ht.covered p (by omega) hp
    have hplace := hstart e he
    obtain ⟨j, rfl⟩ : ∃ j, p = l.start e.1 + j := Nat.exists_eq_add_of_le (by omega)
    have hj : j < e.2.2.toNat := by omega
    have hget : y.get (l.start e.1 + j) = (Vec.zeros l.length).get (l.start e.1 + j) +
        (block x (l.start e.1) e.2.2.toNat).get j :=
      hy.inside _ (List.mem_map_of_mem he) j (by rwa [size_block])
    rw [hget, Vec.get_zeros, zero_add, block, Vec.get_ofFn hj]

end Unpacked

/-! ### Adding onto one key -/

theorem Proper.readSpan_added (hl : l.Proper) {e e' : Key × (Int × Int)} (he : e ∈ l.spans.entries)
    (he' : e' ∈ l.spans.entries) (hne : e'.1 ≠ e.1) {x value out : Vec K} (h : Adds x e.2 value out)
    (hfits : e'.2.1 + e'.2.2 ≤ x.size) : readSpan out e'.2 = readSpan x e'.2 := by
  have hx := (hl.sound he').reads hfits
  have hout : Reads out e'.2 (readSpan out e'.2) := (hl.sound he').reads (h.size.symm ▸ hfits)
  have hsize : (readSpan out e'.2).size = (readSpan x e'.2).size := by
    have := hx.size
    have := hout.size
    omega
  refine Vec.ext_get hsize fun i hi => ?_
  rw [hout.get i hi, hx.get i (hsize ▸ hi)]
  refine h.kept _ (by_contra fun hin => ?_)
  have h0 := (hl.inside e' he').1
  have hlength := hout.size
  exact hne (hl.disjoint e' he' e he (e'.2.1 + i) (by omega) (by omega) (by omega) (by omega))

/-- **Adding onto one key is seen by no other key**, whatever buffer it is done in. -/
theorem Proper.gather_scatterAdd_of_ne (hl : l.Proper) {x out : Vec K} {key key' : Key} {value : Tensor K}
    (h : l.scatterAdd (.ofVec x) key value = .ok out) (hne : key' ≠ key) :
    l.gather (.ofVec out) key' = l.gather (.ofVec x) key' := by
  obtain ⟨s, hs, -, hadds⟩ := (safe_of_sound fun e he => hl.sound he).scatterAdd x out value key h
  rw [gather, gather, Tensor.shape_ofVec, Tensor.shape_ofVec, hadds.size]
  cases hchecked : l.checkedSpan [x.size] key' with
  | error _ => rfl
  | ok s' =>
    obtain ⟨hspan, rfl, hfits⟩ := checkedSpan_eq_ok hchecked
    exact congrArg Except.ok
      (hl.readSpan_added (mem_of_span hs).1 (mem_of_span hspan).1 hne hadds hfits)

/-- The key itself reads the sum. -/
theorem Holds.gather_scatterAdd {key : Key} {x v : Vec K} (h : l.Holds key v.size) (hx : x.size = l.length) :
    ∃ b out, l.gather (.ofVec x) key = .ok b ∧ l.scatterAdd (.ofVec x) key (.ofVec v) = .ok out ∧
      l.gather (.ofVec out) key = .ok (b + v) := by
  have hout := (size_addBlock x (l.start key) v).trans hx
  refine ⟨_, _, gather_of_holds h hx, scatterAdd_of_holds h hx, ?_⟩
  rw [gather_of_holds h hout]
  refine congrArg Except.ok (Vec.ext_get (by rw [Vec.size_add, size_block, size_block]) fun j hj => ?_)
  rw [size_block] at hj
  rw [Vec.get_add (by rwa [size_block]), block, block, Vec.get_ofFn hj, Vec.get_ofFn hj,
    get_addBlock_inside (hx.symm ▸ h.inside) hj]

theorem Takes.dot_packed (hl : l.Proper) {d : Table Key (Vec K)} (hd : l.Takes d) {x y : Vec K}
    (hx : x.size = l.length) (hy : Added l.start d.entries (Vec.zeros l.length) y) :
    ∃ parts, (d.entries.mapM fun e => return e.2.dot (← l.gather (.ofVec x) e.1)) = Except.ok parts ∧
      y.dot x = parts.sum := by
  refine ⟨d.entries.map fun e => e.2.dot (block x (l.start e.1) e.2.size), ?_, ?_⟩
  · rw [mapM_eq_ok, List.map_map]
    refine List.map_congr_left fun e he => ?_
    rw [gather_of_holds (hd.holds hl he) hx]
    rfl
  · have hzero : (Vec.zeros l.length).dot x = 0 := by
      rw [Vec.dot_eq (Vec.size_zeros _), Vec.coords_zeros, zero_dotProduct]
    rw [hy.dot, hzero, zero_add]

/-! ### Packing and unpacking -/

/-- Packing and unpacking undo each other from the place `first` on, and are each other's transposes. -/
structure Packs (K : Type) [ExactScalar K] (l : Layout) (first : Nat) : Prop where
  /-- Blocks come back, with zeros for the keys that none was given for. -/
  unpack_pack : ∀ d : Table Key (Vec K), l.Takes d →
    ∃ y, l.pack (asContainer d) = .ok y ∧ y.size = l.length ∧ l.unpack (.ofVec y) = .ok (l.completed d) ∧
      ((∀ key ∈ l.keys, key ∈ d.keys) → ∀ key, (l.completed d).find? key = d.find? key)
  /-- The order in which blocks were written does not matter. -/
  order : ∀ d d' : Table Key (Vec K), l.Takes d → (∀ key, d'.find? key = d.find? key) →
    l.pack (asContainer d') = l.pack (asContainer d)
  /-- Buffers come back, but for the places before the first span. -/
  pack_unpack : ∀ x : Vec K, x.size = l.length →
    ∃ d y, l.unpack (.ofVec x) = .ok d ∧ l.Takes d ∧ l.pack (asContainer d) = .ok y ∧
      y = clearBefore first x ∧ (first = 0 → y = x)
  /-- A key reads what was added onto it. -/
  gather_scatterAdd : ∀ (x v : Vec K) (key : Key) (o : Int), x.size = l.length →
    l.span key = .ok (o, (v.size : Int)) →
    ∃ b out, l.gather (.ofVec x) key = .ok b ∧ l.scatterAdd (.ofVec x) key (.ofVec v) = .ok out ∧
      l.gather (.ofVec out) key = .ok (b + v)
  /-- No other key sees it. -/
  gather_other : ∀ (x out : Vec K) (value : Tensor K) (key key' : Key),
    l.scatterAdd (.ofVec x) key value = .ok out → key' ≠ key →
    l.gather (.ofVec out) key' = l.gather (.ofVec x) key'
  /-- The inner product with a packed buffer is the sum of those with its blocks. -/
  dot_pack : ∀ (d : Table Key (Vec K)) (x : Vec K), l.Takes d → x.size = l.length →
    ∃ y parts, l.pack (asContainer d) = .ok y ∧
      (d.entries.mapM fun e => return e.2.dot (← l.gather (.ofVec x) e.1)) = Except.ok parts ∧
      y.dot x = parts.sum

/-- **Packing and unpacking are inverse and adjoint**, for layouts of widths and of offsets, zero-length
blocks included. -/
theorem packs_of_built {first : Nat} (h : l.Built first) : l.Packs K first where
  unpack_pack := by
    intro d hd
    obtain ⟨y, hy, hadded⟩ := hd.pack_eq h.proper
    exact ⟨y, hy, hadded.size.trans (Vec.size_zeros _), hd.unpack_packed h.proper hadded, hd.find?_completed⟩
  order := by
    intro d d' hd hsame
    have hmem : ∀ e, e ∈ d'.entries ↔ e ∈ d.entries := by
      intro e
      exact ⟨fun he => Table.mem_of_find? (hsame e.1 ▸ Table.find?_of_mem he),
        fun he => Table.mem_of_find? ((hsame e.1).trans (Table.find?_of_mem he))⟩
    have hd' : l.Takes d' := fun e he => hd e ((hmem e).mp he)
    obtain ⟨y, hy, hadded⟩ := hd.pack_eq h.proper
    obtain ⟨y', hy', hadded'⟩ := hd'.pack_eq h.proper
    rw [hy, hy', hadded'.unique hadded hmem]
  pack_unpack := by
    intro x hx
    have htakes := takes_unpacked h.proper x
    obtain ⟨y, hy, hadded⟩ := htakes.pack_eq h.proper
    have hclear := h.tiled.added_unpacked h.proper hx y hadded
    refine ⟨_, y, h.proper.unpack_ofVec hx, htakes, hy, hclear, fun hfirst => ?_⟩
    rw [hclear, hfirst, clearBefore_zero]
  gather_scatterAdd := fun _ _ _ _ hx hspan => (h.proper.holds hspan).gather_scatterAdd hx
  gather_other := fun _ _ _ _ _ hout hne => h.proper.gather_scatterAdd_of_ne hout hne
  dot_pack := by
    intro d x hd hx
    obtain ⟨y, hy, hadded⟩ := hd.pack_eq h.proper
    obtain ⟨parts, hparts, hdot⟩ := hd.dot_packed h.proper hx hadded
    exact ⟨y, parts, hy, hparts, hdot⟩

/-- Offsets that begin at two, with a block without places between two others. -/
def shifted : Layout :=
  ⟨⟨[(.number 0, (2, 1)), (.number 1, (3, 0)), (.number 2, (3, 2))], by decide⟩, 5⟩

/-- Two of the three blocks, the last one first. -/
def lastFirst : Table Key (Vec ℚ) := ⟨[(.number 2, ⟨#[5, 6]⟩), (.number 0, ⟨#[4]⟩)], by decide⟩

theorem packs_shifted :
    ofOffsets [.whole 2, .whole 3, .whole 3, .whole 5] = .ok shifted ∧
      (∃ y, shifted.pack (asContainer lastFirst) = .ok y ∧ y.size = 5 ∧
        shifted.unpack (.ofVec y) = .ok (shifted.completed lastFirst)) ∧
      (∃ d, shifted.unpack (.ofVec (Vec.ofFn 5 fun i => (i + 1 : ℚ))) = .ok d ∧
        shifted.pack (asContainer d) = .ok (clearBefore 2 (Vec.ofFn 5 fun i => i + 1))) := by
  have hbuilt : ofOffsets [.whole 2, .whole 3, .whole 3, .whole 5] = .ok shifted := rfl
  have htakes : shifted.Takes lastFirst := by
    intro e he
    simp only [lastFirst, List.mem_cons, List.not_mem_nil, or_false] at he
    rcases he with rfl | rfl
    · exact ⟨3, rfl⟩
    · exact ⟨2, rfl⟩
  have hpacks := packs_of_built (K := ℚ) (.offsets hbuilt rfl : shifted.Built 2)
  obtain ⟨y, hy, hsize, hblocks, -⟩ := hpacks.unpack_pack lastFirst htakes
  obtain ⟨d, z, hd, -, hz, hclear, -⟩ := hpacks.pack_unpack (Vec.ofFn 5 fun i => (i + 1 : ℚ)) rfl
  exact ⟨hbuilt, ⟨y, hy, hsize, hblocks⟩, d, hd, hclear ▸ hz⟩

end BundleAdjustment.Layout
