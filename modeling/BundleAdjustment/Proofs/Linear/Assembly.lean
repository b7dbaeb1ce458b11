import BundleAdjustment.Proofs.Linear.Gram
import BundleAdjustment.Proofs.Linear.Spread
import BundleAdjustment.Proofs.Linear.Placement

/-!
The assembled matrix is that of the normal equations.

`augmented` is a factor's `[A b]` among the columns of a block matrix: each matrix in the columns
of its key's slot, the right-hand side in the last one. Folding a factor in adds
`[A b]ᵀ Wᵀ W [A b]` to the whole matrix (`full_addTo`), so a list of factors adds the sum over
those that have terms (`full_foldFactors`), in whatever order their slots stand.
-/
namespace BundleAdjustment
open Matrix

/-- The first column of a key's slot. -/
def SlotTable.start (slots : SlotTable) (widths : List Nat) (key : Key) : Nat :=
  BlockMatrix.total (widths.take (slots.slotOf key).toNat)

namespace LinearFactor
open BlockMatrix
variable {K : Type} [ExactScalar K]

/-- Entry `(k, c)` of a factor's `[A b]` among `n` columns, of which the last is that of `b`. -/
def augmentedAt (f : LinearFactor K) (start : Key → Nat) (n k c : Nat) : K :=
  spreadAt start f.terms.entries k c + if c + 1 = n then f.rhs.get k else 0

/-- `[A b]` among the columns of a matrix with the given widths. -/
def augmented (f : LinearFactor K) (slots : SlotTable) (widths : List Nat) :
    Matrix (Fin f.rows) (Fin (total widths)) K :=
  fun k c => f.augmentedAt (slots.start widths) (total widths) k c

/-- What a factor has to contribute: `[A b]ᵀ Wᵀ W [A b]`. -/
def normalMatrix (f : LinearFactor K) (slots : SlotTable) (widths : List Nat) :
    Matrix (Fin (total widths)) (Fin (total widths)) K :=
  (f.augmented slots widths)ᵀ * (f.whiteningᵀ * f.whitening) * f.augmented slots widths

theorem augmentedAt_whitenedTo {f g : LinearFactor K} (h : f.WhitenedTo g) (start : Key → Nat)
    (n : Nat) {k c : Nat} (hk : k < f.scaling.size) :
    g.augmentedAt start n k c = f.augmentedAt start n (f.scaling.source k) c * f.scaling.scale k := by
  rw [augmentedAt, augmentedAt, spreadAt_whitenedTo h start hk, add_mul, ite_mul, zero_mul, h.rhs]
  congr 2
  exact Vec.get_ofFn hk

/-- The contribution of a factor is the Gram matrix of the whitened columns. -/
theorem normalMatrix_apply {f g : LinearFactor K} (h : f.WhitenedTo g) (slots : SlotTable)
    (widths : List Nat) (R C : Fin (total widths)) :
    f.normalMatrix slots widths R C = ∑ k ∈ Finset.range g.rows,
      g.augmentedAt (slots.start widths) (total widths) k R *
        g.augmentedAt (slots.start widths) (total widths) k C := by
  have hrows : g.rows = f.scaling.size := by
    rw [rows, h.rhs]
    exact Vec.size_ofFn _ _
  have hcol : ∀ (k : Fin f.scaling.size) (c : Fin (total widths)),
      (f.whitening * f.augmented slots widths) k c =
        g.augmentedAt (slots.start widths) (total widths) k c := by
    intro k c
    rw [augmentedAt_whitenedTo h _ _ k.isLt]
    exact RowScaling.matrix_mulVec h.into
      (fun i => f.augmentedAt (slots.start widths) (total widths) i c) k
  have hgram : f.normalMatrix slots widths =
      (f.whitening * f.augmented slots widths)ᵀ * (f.whitening * f.augmented slots widths) := by
    rw [normalMatrix, Matrix.transpose_mul]
    simp only [Matrix.mul_assoc]
  rw [hgram, hrows, Finset.sum_range, Matrix.mul_apply]
  refine Finset.sum_congr rfl fun k _ => ?_
  rw [Matrix.transpose_apply, hcol, hcol]

/-! ### One factor -/

theorem columnOf_placed {g : LinearFactor K} {slots : SlotTable} {M : BlockMatrix K}
    (hg : g.PlacedIn slots M) {i r : Nat} (hi : i < M.count) (hr : r < M.width i) (k : Nat) :
    columnOf (g.placed slots) i r k =
      spreadAt (slots.start M.widths) g.terms.entries k (M.offset i + r) := by
  unfold columnOf placed spreadAt
  rw [List.map_map]
  congr 1
  refine List.map_congr_left fun e he => ?_
  obtain ⟨h0, hl⟩ := hg.unknowns e he
  have hw : M.widths.getD (slots.slotOf e.1).toNat 0 = e.2.cols := hg.widths e he
  have hs : (slots.slotOf e.1).toNat < M.widths.length := by
    have : (slots.slotOf e.1).toNat < M.count := by
      unfold lastSlot at hl
      omega
    exact this
  have hmem := mem_block_iff hs hi hr
  rw [hw] at hmem
  show (if slots.slotOf e.1 = i then e.2.get k r else 0) = _
  by_cases hc : slots.slotOf e.1 = i
  · have hi' : (slots.slotOf e.1).toNat = i := by omega
    have hin : slots.start M.widths e.1 ≤ M.offset i + r ∧
        M.offset i + r < slots.start M.widths e.1 + e.2.cols := hmem.mpr hi'
    have hsub : M.offset i + r - slots.start M.widths e.1 = r := by
      rw [SlotTable.start, hi']
      exact Nat.add_sub_cancel_left _ _
    rw [if_pos hc, if_pos hin, hsub]
  · have hout : ¬ (slots.start M.widths e.1 ≤ M.offset i + r ∧
        M.offset i + r < slots.start M.widths e.1 + e.2.cols) := by
      intro hin
      have := hmem.mp hin
      omega
    rw [if_neg hc, if_neg hout]

theorem columnOf_inOrder {g : LinearFactor K} {slots : SlotTable} {M : BlockMatrix K}
    (hg : g.PlacedIn slots M) (hlast : M.widths.getLast? = some 1) {i r k : Nat} (hi : i < M.count)
    (hr : r < M.width i) (hk : k < g.rows) :
    columnOf (inOrder g.rhs M.lastSlot (g.placed slots)) i r k =
      g.augmentedAt (slots.start M.widths) M.order k (M.offset i + r) := by
  obtain ⟨l, hl, hlc, hlw, hend⟩ := last_of_getLast? hlast
  have hmem := mem_block_iff hlc hi hr
  rw [columnOf_perm (perm_inOrder _ _ _), columnOf, List.map_append, List.sum_append]
  show columnOf (g.placed slots) i r k + ([pick (M.lastSlot, Mat.ofColumn g.rhs) i r k]).sum = _
  rw [columnOf_placed hg hi hr, augmentedAt, List.sum_singleton, pick, hl]
  congr 1
  by_cases hc : l = i
  · subst hc
    have hr0 : r = 0 := by omega
    subst hr0
    rw [if_pos rfl, if_pos (by omega)]
    exact Mat.get_ofFn hk Nat.one_pos
  · have hne : ¬ ((l : Int) = i) := by omega
    have hne' : ¬ (M.offset i + r + 1 = M.order) := by
      intro he
      refine hc (hmem.mp ?_)
      have ho : total (M.widths.take l) = M.offset l := rfl
      have ho' : total (M.widths.take i) = M.offset i := rfl
      have hw : M.widths.getD l 0 = 1 := hlw
      omega
    rw [if_neg hne, if_neg hne']

/-- No place of a block lies outside the matrices in its slot. -/
theorem inside_inOrder {g : LinearFactor K} {slots : SlotTable} {M : BlockMatrix K}
    (hg : g.PlacedIn slots M) (hlast : M.widths.getLast? = some 1) {i r : Nat} (hr : r < M.width i) :
    Inside (inOrder g.rhs M.lastSlot (g.placed slots)) i r := by
  obtain ⟨l, hl, -, hlw, -⟩ := last_of_getLast? hlast
  intro t ht hti
  rcases List.mem_append.mp ht with ht | ht
  · have hb := bounds_of_mem_placed hg (List.mem_mergeSort.mp ht)
    rw [hb.2.2, hti]
    exact hr
  · rw [List.mem_singleton.mp ht] at hti ⊢
    have hil : i = l := by
      have : M.lastSlot = i := hti
      omega
    rw [hil, hlw] at hr
    exact hr

theorem rows_inOrder (g : LinearFactor K) (slots : SlotTable) (last : Int) :
    ∀ t ∈ inOrder g.rhs last (g.placed slots), t.2.rows = g.rows := by
  intro t ht
  rcases List.mem_append.mp ht with ht | ht
  · exact rows_of_mem_placed (List.mem_mergeSort.mp ht)
  · rw [List.mem_singleton.mp ht]
    rfl

theorem full_writeAll {g : LinearFactor K} {slots : SlotTable} {M : BlockMatrix K}
    (hg : g.PlacedIn slots M) (hlast : M.widths.getLast? = some 1) {R C : Nat} (hR : R < M.order)
    (hC : C < M.order) :
    (M.writeAll (crossWrites (inOrder g.rhs M.lastSlot (g.placed slots)))).1.full.get R C =
      M.full.get R C + ∑ k ∈ Finset.range g.rows,
        g.augmentedAt (slots.start M.widths) M.order k R * g.augmentedAt (slots.start M.widths) M.order k C := by
  obtain ⟨l, hl, hlc, hlw, hend⟩ := last_of_getLast? hlast
  obtain ⟨hi, hr, hRe⟩ := locate_spec hR
  obtain ⟨hj, hc, hCe⟩ := locate_spec hC
  have hwl : M.width M.lastSlot.toNat = 1 := by rw [hl]; exact hlw
  have hfits := writeAll_eq_ok_iff.mp (writeAll_crossWrites hg hwl)
  have hwidths := widths_writeAll M (crossWrites (inOrder g.rhs M.lastSlot (g.placed slots)))
  have horder : ∀ M' : BlockMatrix K, M'.widths = M.widths → M'.order = M.order := by
    intro M' h
    rw [order, h, order]
  have hnodup : ((inOrder g.rhs M.lastSlot (g.placed slots)).map Prod.fst).Nodup :=
    List.pairwise_map.mpr ((pairwise_placed hg).imp fun h => ne_of_lt h)
  -- A place is read through the blocks it lies in, and there the writes add up to a product of columns.
  rw [get_full (horder _ hwidths ▸ hR) (horder _ hwidths ▸ hC), get_full hR hC, hwidths,
    get_writeAll hfits hr hc, sum_crossWrites hnodup (rows_inOrder g slots M.lastSlot)
      (inside_inOrder hg hlast hr) (inside_inOrder hg hlast hc)]
  congr 1
  refine Finset.sum_congr rfl fun k hk => ?_
  have hk' := Finset.mem_range.mp hk
  have hRe' : M.offset (locate M.widths R).1 + (locate M.widths R).2 = R := hRe
  have hCe' : M.offset (locate M.widths C).1 + (locate M.widths C).2 = C := hCe
  rw [columnOf_inOrder hg hlast hi hr hk', columnOf_inOrder hg hlast hj hc hk', hRe', hCe']

theorem whitenedTo_of_foldsTo {f g : LinearFactor K} (h : f.FoldsTo g) : f.WhitenedTo g := by
  rcases h with ⟨hn, rfl⟩ | h
  · exact whitenedTo_self hn
  · exact whitenedTo_of_whiten h

/-- A factor that is folded in adds what it has to contribute, and nothing if it has no terms. -/
theorem full_addTo {f : LinearFactor K} {slots : SlotTable} {M M' : BlockMatrix K}
    (hlast : M.widths.getLast? = some 1) (h : f.addTo slots M = (M', .ok ())) :
    M'.widths = M.widths ∧ M'.full.matrix (total M.widths) (total M.widths) =
      M.full.matrix (total M.widths) (total M.widths) +
        if f.isEmpty then 0 else f.normalMatrix slots M.widths := by
  unfold addTo at h
  cases hw : f.writes slots M with
  | error e =>
    rw [hw] at h
    cases h
  | ok ws =>
    rw [hw] at h
    have hM : M' = (M.writeAll ws).1 := (congrArg Prod.fst h).symm
    subst hM
    refine ⟨widths_writeAll M ws, ?_⟩
    rcases writes_eq_ok hw with ⟨he, rfl⟩ | ⟨hne, g, hfold, hg, rfl⟩
    · rw [he, if_pos rfl, add_zero]
      rfl
    · rw [hne, if_neg Bool.false_ne_true]
      funext R C
      rw [Matrix.add_apply, normalMatrix_apply (whitenedTo_of_foldsTo hfold)]
      exact full_writeAll hg hlast R.isLt C.isLt

/-- What factors have to contribute together; those without terms have nothing. -/
def normalSum (slots : SlotTable) (widths : List Nat) (factors : List (LinearFactor K)) :
    Matrix (Fin (total widths)) (Fin (total widths)) K :=
  ((factors.filter fun f => !f.isEmpty).map fun f => f.normalMatrix slots widths).sum

theorem normalSum_cons (slots : SlotTable) (widths : List Nat) (f : LinearFactor K)
    (rest : List (LinearFactor K)) :
    normalSum slots widths (f :: rest) =
      (if f.isEmpty then 0 else f.normalMatrix slots widths) + normalSum slots widths rest := by
  unfold normalSum
  cases hf : f.isEmpty <;> simp [hf]

theorem normalSum_append (slots : SlotTable) (widths : List Nat) (fs gs : List (LinearFactor K)) :
    normalSum slots widths (fs ++ gs) = normalSum slots widths fs + normalSum slots widths gs := by
  rw [normalSum, List.filter_append, List.map_append, List.sum_append]
  rfl

structure IsZero (f : LinearFactor K) : Prop where
  rhs : ∃ n, f.rhs = Vec.zeros n
  terms : ∀ e ∈ f.terms.entries, ∃ r c, e.2 = Mat.zeros r c

/-- A factor of zeros has nothing to contribute. -/
theorem IsZero.normalMatrix_eq {f : LinearFactor K} (h : f.IsZero) (slots : SlotTable) (widths : List Nat) :
    f.normalMatrix slots widths = 0 := by
  obtain ⟨n, hn⟩ := h.rhs
  have haug : f.augmented slots widths = 0 := by
    funext k c
    show spreadAt _ f.terms.entries k c + (if _ then f.rhs.get k else 0) = 0
    have hspread : spreadAt (slots.start widths) f.terms.entries k c = 0 := by
      refine List.sum_eq_zero fun v hv => ?_
      obtain ⟨e, he, rfl⟩ := List.mem_map.mp hv
      obtain ⟨r, c', hz⟩ := h.terms e he
      simp only [hz, Mat.get_zeros, ite_self]
    rw [hspread, hn, Vec.get_zeros, ite_self, add_zero]
  rw [normalMatrix, haug, Matrix.mul_zero]

theorem normalSum_insert_zero (slots : SlotTable) (widths : List Nat) {out : Option (LinearFactor K)}
    (h : ∀ f, out = some f → f.IsZero) (l₁ l₂ : List (Option (LinearFactor K))) :
    normalSum slots widths ((l₁ ++ l₂).filterMap id) =
      normalSum slots widths ((l₁ ++ out :: l₂).filterMap id) := by
  rw [List.filterMap_append, List.filterMap_append, normalSum_append, normalSum_append]
  congr 1
  cases out with
  | none => rfl
  | some f =>
    have hcons : (some f :: l₂).filterMap id = f :: l₂.filterMap id := rfl
    rw [hcons, normalSum_cons, (h f rfl).normalMatrix_eq, ite_self, zero_add]

theorem slot_mapping {slots : SlotTable} {table : Table Key Count} (h : slots.toTable = .ok table)
    (key : Key) : (SlotTable.mapping table).slot key = slots.slot key := by
  rw [SlotTable.slot, SlotTable.slot, h]
  rfl

theorem slotOf_mapping {slots : SlotTable} {table : Table Key Count} (h : slots.toTable = .ok table) :
    (SlotTable.mapping table).slotOf = slots.slotOf := by
  funext key
  rw [SlotTable.slotOf, SlotTable.slotOf, slot_mapping h]

theorem normalSum_mapping {slots : SlotTable} {table : Table Key Count} (h : slots.toTable = .ok table)
    (widths : List Nat) (factors : List (LinearFactor K)) :
    normalSum (.mapping table) widths factors = normalSum slots widths factors := by
  have hstart : (SlotTable.mapping table).start widths = slots.start widths := by
    funext k
    rw [SlotTable.start, SlotTable.start, slotOf_mapping h]
  unfold normalSum normalMatrix augmented
  rw [hstart]

end LinearFactor

/-! ### Many factors -/

namespace BlockMatrix
open LinearFactor
variable {K : Type} [ExactScalar K]

theorem full_foldFactors {slots : SlotTable} {M M' : BlockMatrix K} {factors : List (LinearFactor K)}
    (hlast : M.widths.getLast? = some 1) (h : M.foldFactors slots factors = .ok M') :
    M'.widths = M.widths ∧ M'.full.matrix (total M.widths) (total M.widths) =
      M.full.matrix (total M.widths) (total M.widths) + normalSum slots M.widths factors := by
  induction factors generalizing M with
  | nil =>
    cases h
    exact ⟨rfl, (add_zero _).symm⟩
  | cons f rest ih =>
    unfold foldFactors at h
    rcases ha : f.addTo slots M with ⟨M₁, r⟩
    rw [ha] at h
    cases r with
    | error e => cases h
    | ok u =>
      obtain ⟨hw, hfull⟩ := full_addTo hlast ha
      obtain ⟨hw', hfull'⟩ := ih (hw ▸ hlast) h
      rw [hw] at hw' hfull'
      refine ⟨hw', ?_⟩
      rw [hfull', hfull, normalSum_cons, add_assoc]

theorem foldFactors_singleton {f : LinearFactor K} {slots : SlotTable} {M : BlockMatrix K}
    (h : (f.addTo slots M).2 = .ok ()) : M.foldFactors slots [f] = .ok (f.addTo slots M).1 := by
  unfold foldFactors
  rcases ha : f.addTo slots M with ⟨M', r⟩
  rw [ha] at h
  cases h
  rfl

omit [ExactScalar K] in
/-- A matrix made for assembly has the given widths and one more of one, and nothing in it. -/
theorem ofCounts_eq_ok {counts : List Count} {M : BlockMatrix K} (h : ofCounts counts true = .ok M) :
    ∃ given : List Int, counts.mapM Count.truncate = .ok given ∧ (∀ n ∈ given, 0 < n) ∧
      M.widths = given.map Int.toNat ++ [1] ∧ M.blocks = Table.empty := by
  obtain ⟨given, hg, hpos, hw, hb⟩ := ofCounts_parts h
  exact ⟨given, hg, fun n hn => hpos n (List.mem_append_left _ hn), hw.trans List.map_append, hb⟩

theorem full_of_blocks_empty {M : BlockMatrix K} (h : M.blocks = Table.empty) :
    M.full.matrix (total M.widths) (total M.widths) = 0 := by
  funext R C
  obtain ⟨_, hr, _⟩ := locate_spec R.isLt
  obtain ⟨_, hc, _⟩ := locate_spec C.isLt
  have hupper : ∀ i j, M.upper i j = Mat.zeros (M.width i) (M.width j) := by
    intro i j
    rw [upper, h]
    rfl
  rw [Mat.matrix_apply, get_full R.isLt C.isLt, get]
  split
  · rw [hupper, Mat.get_transpose hr hc]
    exact Mat.get_ofFn hc hr
  · rw [hupper]
    exact Mat.get_ofFn hr hc

omit [ExactScalar K] in
/-- Assembly folds the factors that are there into a matrix of zeros. -/
theorem accumulate_eq_ok [Scalar K] {factors : List (Option (LinearFactor K))} {slots : SlotTable}
    {counts : List Count} {M : BlockMatrix K} (h : accumulate factors slots counts = .ok M) :
    ∃ table M₀, slots.toTable = .ok table ∧ counts.length = table.size ∧ ofCounts counts true = .ok M₀ ∧
      M₀.foldFactors (.mapping table) (factors.filterMap id) = .ok M := by
  obtain ⟨table, ht, h⟩ := bind_eq_ok.mp h
  split at h
  · rename_i hlen
    obtain ⟨M₀, hM, h⟩ := bind_eq_ok.mp h
    exact ⟨table, M₀, ht, hlen, hM, h⟩
  · cases h

theorem full_accumulate {factors : List (Option (LinearFactor K))} {slots : SlotTable}
    {counts : List Count} {M : BlockMatrix K} (h : accumulate factors slots counts = .ok M) :
    M.full.matrix (total M.widths) (total M.widths) =
      normalSum slots M.widths (factors.filterMap id) := by
  obtain ⟨table, M₀, ht, _, hM, hfold⟩ := accumulate_eq_ok h
  obtain ⟨given, _, _, hw, hb⟩ := ofCounts_eq_ok hM
  have hlast : M₀.widths.getLast? = some 1 := by rw [hw, List.getLast?_concat]
  obtain ⟨hw', hfull⟩ := full_foldFactors hlast hfold
  rw [hw', hfull, full_of_blocks_empty hb, zero_add, normalSum_mapping ht]

/-- Each factor that is assembled could be folded in by itself. -/
theorem addTo_of_accumulate {factors : List (LinearFactor K)} {slots : SlotTable} {counts : List Count}
    {M : BlockMatrix K} (h : accumulate (factors.map some) slots counts = .ok M) :
    ∃ (table : Table Key Count) (M₀ : BlockMatrix K), slots.toTable = .ok table ∧
      ∀ f ∈ factors, (f.addTo (.mapping table) M₀).2 = .ok () := by
  obtain ⟨table, M₀, ht, -, -, hfold⟩ := accumulate_eq_ok h
  rw [List.filterMap_map, Function.id_comp, List.filterMap_some] at hfold
  exact ⟨table, M₀, ht, foldFactors_eq_ok_iff.mp ⟨M, hfold⟩⟩

/-- Factors that contribute nothing may be left out of assembly. -/
theorem accumulate_sublist {fs gs : List (LinearFactor K)} {slots : SlotTable} {counts : List Count}
    {M : BlockMatrix K} (hs : gs.Sublist fs)
    (hsum : ∀ slots widths, normalSum slots widths gs = normalSum slots widths fs)
    (h : accumulate (fs.map some) slots counts = .ok M) :
    ∃ N, accumulate (gs.map some) slots counts = .ok N ∧ N.widths = M.widths ∧
      ∀ R C, R < M.order → C < M.order → N.full.get R C = M.full.get R C := by
  obtain ⟨table, M₀, ht, hlen, hM, hfold⟩ := accumulate_eq_ok h
  obtain ⟨given, -, -, hw, -⟩ := ofCounts_eq_ok hM
  have hlast : M₀.widths.getLast? = some 1 := by rw [hw, List.getLast?_concat]
  rw [List.filterMap_map, Function.id_comp, List.filterMap_some] at hfold
  obtain ⟨N, hN⟩ := foldFactors_eq_ok_iff.mpr fun f hf =>
    foldFactors_eq_ok_iff.mp ⟨M, hfold⟩ f (hs.subset hf)
  obtain ⟨hMw, hMfull⟩ := full_foldFactors hlast hfold
  obtain ⟨hNw, hNfull⟩ := full_foldFactors hlast hN
  refine ⟨N, ?_, hNw.trans hMw.symm, fun R C hR hC => ?_⟩
  · rw [accumulate, ht, ok_bind, if_pos hlen, hM, ok_bind, List.filterMap_map, Function.id_comp,
      List.filterMap_some, hN]
  · rw [order, hMw] at hR hC
    rw [hsum, ← hMfull] at hNfull
    exact congrFun (congrFun hNfull ⟨R, hR⟩) ⟨C, hC⟩

/-- **Assembly gives the matrix of the normal equations.** Folding factors into a matrix whose
last block is one wide adds `[A b]ᵀ Wᵀ W [A b]` for each factor with terms; a matrix that is
assembled from nothing is their sum. -/
theorem full_eq_normalSum (slots : SlotTable) :
    (∀ (factors : List (LinearFactor K)) (M M' : BlockMatrix K), M.widths.getLast? = some 1 →
      M.foldFactors slots factors = .ok M' →
      M'.widths = M.widths ∧ M'.full.matrix (total M.widths) (total M.widths) =
        M.full.matrix (total M.widths) (total M.widths) + normalSum slots M.widths factors) ∧
    ∀ (factors : List (Option (LinearFactor K))) (counts : List Count) (M : BlockMatrix K),
      accumulate factors slots counts = .ok M →
      M.full.matrix (total M.widths) (total M.widths) =
        normalSum slots M.widths (factors.filterMap id) :=
  ⟨fun _ _ _ hlast h => full_foldFactors hlast h, fun _ _ _ h => full_accumulate h⟩

/-- Two unequal deviations, and terms in the order opposite to that of their slots. -/
def tiltedPair (K : Type) [ExactScalar K] : LinearFactor K where
  kind := .pair
  terms := ⟨[(.number 1, Mat.ofFn 2 1 fun i _ => i + 1), (.number 0, Mat.ofFn 2 2 fun i j => 2 * i + j)], by
    show [Key.number 1, Key.number 0].Nodup
    decide⟩
  rhs := Vec.ofFn 2 fun i => 3 - i
  model := some (.diagonal (Vec.ofFn 2 fun i => i + 2))
  rows_eq := by
    intro e he
    simp only [List.mem_cons, List.not_mem_nil, or_false] at he
    rcases he with rfl | rfl <;> exact (Vec.size_ofFn 2 _).symm
  model_rows := fun m hm => by
    cases hm
    rfl
  fits := ⟨rfl, Vec.size_ofFn 2 _⟩

theorem onePerRow_tiltedPair {K : Type} [ExactScalar K] :
    ∀ f ∈ [tiltedPair K], LinearFactor.OnePerRow f.model f.rows := by
  intro f hf m hm
  rw [List.mem_singleton.mp hf] at hm ⊢
  cases hm
  rfl

/-- The pair is assembled, and folded in once more: an entry off the diagonal is the product of two
columns, weighed by both deviations, and then twice that. -/
theorem full_eq_normalSum_tiltedPair :
    ∃ M M' : BlockMatrix ℚ,
      accumulate [some (tiltedPair ℚ), none] (.ordering [.number 0, .number 1]) [.whole 2, .whole 1] = .ok M ∧
      M.full.matrix (total M.widths) (total M.widths) =
        normalSum (.ordering [.number 0, .number 1]) M.widths [tiltedPair ℚ] ∧
      M.foldFactors (.ordering [.number 0, .number 1]) [tiltedPair ℚ] = .ok M' ∧
      M'.full.matrix (total M.widths) (total M.widths) =
        M.full.matrix (total M.widths) (total M.widths) +
          normalSum (.ordering [.number 0, .number 1]) M.widths [tiltedPair ℚ] ∧
      M.full.get 1 2 = 1 / 2 * (1 / 2) + 3 / 3 * (2 / 3) ∧ M'.full.get 1 2 = 11 / 6 := by
  have hok : (do
      let M ← accumulate [some (tiltedPair ℚ), none] (.ordering [.number 0, .number 1]) [.whole 2, .whole 1]
      let M' ← M.foldFactors (.ordering [.number 0, .number 1]) [tiltedPair ℚ]
      return decide (M.widths.getLast? = some 1 ∧
        M.full.get 1 2 = 1 / 2 * (1 / 2) + 3 / 3 * (2 / 3) ∧ M'.full.get 1 2 = 11 / 6)).toOption =
      some true := by decide +kernel
  obtain ⟨M, hM, h⟩ := bind_eq_ok.mp (toOption_eq_some.mp hok)
  obtain ⟨M', hM', h⟩ := bind_eq_ok.mp h
  obtain ⟨hlast, hentries⟩ := of_decide_eq_true (pure_eq_ok.mp h)
  have hsum := full_eq_normalSum (K := ℚ) (.ordering [.number 0, .number 1])
  exact ⟨M, M', hM, hsum.2 _ _ M hM, hM', (hsum.1 _ M M' hlast hM').2, hentries⟩

end BlockMatrix

namespace Solver

/-- One row that is weighed twice, without a hard constraint. -/
def twoDeviations (K : Type) [ExactScalar K] : LinearFactor K where
  kind := .general
  terms := ⟨[(.number 0, Mat.ofFn 1 1 fun _ _ => 1)], List.nodup_singleton _⟩
  rhs := Vec.ofFn 1 fun _ => 1
  model := some (.constrained ⟨[1, 2], #[1, 2], rfl⟩ 1000)
  rows_eq := fun e he => by
    rw [List.mem_singleton.mp he]
    exact (Vec.size_ofFn 1 _).symm
  model_rows := fun m hm => by
    cases hm
    rfl
  fits := trivial

end Solver
end BundleAdjustment
