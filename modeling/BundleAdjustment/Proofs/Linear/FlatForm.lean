import BundleAdjustment.Proofs.Linear.Forms

/-!
Flat buffers and containers.

A factor of one width works on a flat buffer as on the container of its blocks. The keys own spans
of the buffer, which a layout gives them or which their numbers do (`Owns`). Where these spans are
apart, adding onto one leaves the others and all other places as they are, so that the new blocks are
those of the container (`block_addBlocks`, `flat_eq_container`).
-/
namespace BundleAdjustment
open Layout
variable {K : Type} [ExactScalar K]

/-- Offsets that are not negative, and no place of two keys. -/
structure Layout.Apart (l : Layout) : Prop where
  nonneg : ∀ e ∈ l.spans.entries, 0 ≤ e.2.1
  disjoint : ∀ e ∈ l.spans.entries, ∀ e' ∈ l.spans.entries, ∀ p,
    e.2.1 ≤ p → p < e.2.1 + e.2.2 → e'.2.1 ≤ p → p < e'.2.1 + e'.2.2 → e.1 = e'.1

/-! ### Blocks that are added onto -/

section Blocks
variable {start : Key → Nat} {value : Key × Mat K → Vec K} {buffer : Vec K} {terms : List (Key × Mat K)}

/-- A place without a block stays as it is. -/
theorem Layout.get_addBlocks_elsewhere {c : Nat}
    (h : ∀ e ∈ terms, ¬ (start e.1 ≤ c ∧ c < start e.1 + (value e).size)) :
    (addBlocks start value buffer terms).get c = buffer.get c := by
  rcases Nat.lt_or_ge c buffer.size with hc | hc
  · have hzero : (terms.map fun e => if start e.1 ≤ c ∧ c < start e.1 + (value e).size then
        (value e).get (c - start e.1) else 0).sum = 0 := by
      refine List.sum_eq_zero fun v hv => ?_
      obtain ⟨e, he, rfl⟩ := List.mem_map.mp hv
      exact if_neg (h e he)
    rw [get_addBlocks start value terms hc, hzero, add_zero]
  · rw [Vec.get_of_size_le hc, Vec.get_of_size_le (by rw [size_addBlocks]; exact hc)]

/-- A place in one block alone gets what this block adds. -/
theorem Layout.get_addBlocks_of_exclusive {e : Key × Mat K} {c : Nat} (hc : c < buffer.size) (he : e ∈ terms)
    (hd : (terms.map Prod.fst).Nodup) (hin : start e.1 ≤ c ∧ c < start e.1 + (value e).size)
    (h : ∀ e' ∈ terms, e'.1 ≠ e.1 → ¬ (start e'.1 ≤ c ∧ c < start e'.1 + (value e').size)) :
    (addBlocks start value buffer terms).get c = buffer.get c + (value e).get (c - start e.1) := by
  obtain ⟨before, after, rfl⟩ := List.append_of_mem he
  have hkeys : ∀ e' ∈ before ++ after, e'.1 ≠ e.1 := by
    have hperm : (e :: (before ++ after)).Perm (before ++ e :: after) := List.perm_middle.symm
    have hnot := (List.nodup_cons.mp ((hperm.map Prod.fst).nodup_iff.mpr hd)).1
    exact fun e' he' heq => hnot (heq ▸ List.mem_map_of_mem he')
  have hzero : ∀ part : List (Key × Mat K), (∀ e' ∈ part, e' ∈ before ++ after) →
      (part.map fun e' => if start e'.1 ≤ c ∧ c < start e'.1 + (value e').size then
        (value e').get (c - start e'.1) else 0).sum = 0 := by
    intro part hpart
    refine List.sum_eq_zero fun v hv => ?_
    obtain ⟨e', he', rfl⟩ := List.mem_map.mp hv
    have hmem := hpart e' he'
    refine if_neg (h e' ?_ (hkeys e' hmem))
    rcases List.mem_append.mp hmem with hb | ha
    · exact List.mem_append_left _ hb
    · exact List.mem_append_right _ (List.mem_cons_of_mem e ha)
  rw [get_addBlocks start value _ hc, List.map_append, List.map_cons, List.sum_append, List.sum_cons,
    hzero before fun e' he' => List.mem_append_left _ he', hzero after fun e' he' => List.mem_append_right _ he',
    if_pos hin, zero_add, add_zero]

/-- **Blocks that are apart are added onto one by one.** -/
theorem Layout.block_addBlocks {e : Key × Mat K} (he : e ∈ terms) (hd : (terms.map Prod.fst).Nodup)
    (hin : start e.1 + (value e).size ≤ buffer.size)
    (h : ∀ e' ∈ terms, e'.1 ≠ e.1 → ∀ c, start e.1 ≤ c ∧ c < start e.1 + (value e).size →
      ¬ (start e'.1 ≤ c ∧ c < start e'.1 + (value e').size)) :
    block (addBlocks start value buffer terms) (start e.1) (value e).size =
      block buffer (start e.1) (value e).size + value e := by
  refine Vec.ext_get (by rw [size_block, Vec.size_add, size_block]) fun j hj => ?_
  rw [size_block] at hj
  have hplace : start e.1 ≤ start e.1 + j ∧ start e.1 + j < start e.1 + (value e).size := by omega
  rw [Vec.get_add (by rwa [size_block]), block, block, Vec.get_ofFn hj, Vec.get_ofFn hj,
    get_addBlocks_of_exclusive (by omega) he hd hplace fun e' he' hne => h e' he' hne _ hplace,
    Nat.add_sub_cancel_left]

end Blocks

namespace LinearFactor

theorem addTransposed_of_found {u : Vec K} {terms : List (Key × Mat K)} {y : Container K}
    {v : Key × Mat K → Vec K} (hrows : ∀ t ∈ terms, t.2.rows = u.size) (hd : (terms.map Prod.fst).Nodup)
    (hy : ∀ t ∈ terms, y.find? t.1 = some (.ofVec (v t)) ∧ (v t).size = t.2.cols) :
    ∃ y', addTransposed (.ofVec u) y terms = .ok y' ∧
      (∀ t ∈ terms, y'.find? t.1 = some (.ofVec (v t + t.2.transposeMulVec u))) ∧
      ∀ key, key ∉ terms.map Prod.fst → y'.find? key = y.find? key := by
  induction terms generalizing y with
  | nil =>
    refine ⟨y, rfl, ?_, fun _ _ => rfl⟩
    intro t ht
    cases ht
  | cons t rest ih =>
    obtain ⟨hnot, hrest⟩ := List.nodup_cons.mp hd
    obtain ⟨hfound, hsize⟩ := hy t (List.mem_cons_self ..)
    have hadd : (Tensor.ofVec (v t)).add (.ofVec (t.2.transposeMulVec u)) =
        .ok (.ofVec (v t + t.2.transposeMulVec u)) :=
      Tensor.zipWith_ofVec (· + ·) (hsize.trans (Mat.size_transposeMulVec _ _).symm)
    obtain ⟨y', hy', hpresent, hother⟩ := ih (y := y.insert t.1 (.ofVec (v t + t.2.transposeMulVec u)))
      (fun w hw => hrows w (List.mem_cons_of_mem t hw)) hrest fun w hw => by
        have hne : t.1 ≠ w.1 := fun heq => hnot (heq ▸ List.mem_map_of_mem hw)
        rw [Table.find?_insert, if_neg hne]
        exact hy w (List.mem_cons_of_mem t hw)
    refine ⟨y', ?_, ?_, ?_⟩
    · rw [addTransposed, List.foldlM_cons, matmul_transpose (hrows t (List.mem_cons_self ..))]
      simp only [ok_bind, hfound, hadd]
      exact hy'
    · intro w hw
      rcases List.mem_cons.mp hw with rfl | hw
      · rw [hother _ hnot, Table.find?_insert, if_pos rfl]
      · exact hpresent w hw
    · intro key hkey
      rw [List.map_cons, List.mem_cons, not_or] at hkey
      rw [hother key hkey.2, Table.find?_insert, if_neg fun he => hkey.1 he.symm]

/-! ### The spans of a factor's keys -/

/-- The span that a key owns: one that a layout gives it, if that is as long as the width, and without
a layout the places from its number times the width on. -/
def Owns (width : Int) : Option Layout → Key → Int × Int → Prop
  | some l, key, s => l.spans.find? key = some s ∧ s.2 = width
  | none, .number n, s => 0 ≤ n ∧ s = (width * n, width)
  | none, .name _, _ => False

theorem flatSpan_of_owns {width : Int} {layout : Option Layout} {key : Key} {s : Int × Int}
    (h : Owns width layout key s) : flatSpan width layout key = .ok s := by
  cases layout with
  | some l =>
    obtain ⟨hfind, hwidth⟩ := h
    rw [flatSpan, Layout.span, hfind]
    simp only [ok_bind, if_pos hwidth]
    rfl
  | none =>
    cases key with
    | number n =>
      obtain ⟨hn, rfl⟩ := h
      exact if_pos hn
    | name s => exact h.elim

/-- Every key of a factor owns a span; a layout's spans are apart. -/
structure Addressed (f : LinearFactor K) (width : Int) (layout : Option Layout) (span : Key → Int × Int) :
    Prop where
  owns : ∀ key ∈ f.keys, Owns width layout key (span key)
  apart : ∀ l, layout = some l → l.Apart

/-- The first place of a key whose offset is not negative. -/
def firstPlace (span : Key → Int × Int) (key : Key) : Nat := (span key).1.toNat

/-- The keys' spans end within a buffer. -/
def Fit (f : LinearFactor K) (span : Key → Int × Int) (length : Nat) : Prop :=
  ∀ key ∈ f.keys, (span key).1 + (span key).2 ≤ length

/-- A container has the keys' blocks of a buffer. -/
def Reads (f : LinearFactor K) (span : Key → Int × Int) (t : Container K) (buffer : Vec K) : Prop :=
  ∀ key ∈ f.keys, t.find? key = some (.ofVec (readSpan buffer (span key)))

/-- The keys' blocks of a buffer, as a container. -/
def blocksAt (f : LinearFactor K) (span : Key → Int × Int) (buffer : Vec K) : Container K :=
  f.terms.mapValues fun key _ => .ofVec (readSpan buffer (span key))

theorem reads_blocksAt (f : LinearFactor K) (span : Key → Int × Int) (buffer : Vec K) :
    f.Reads span (f.blocksAt span buffer) buffer := by
  intro key hkey
  obtain ⟨e, he, rfl⟩ := List.mem_map.mp hkey
  rw [blocksAt, Table.find?_mapValues, Table.find?_of_mem he]
  rfl

/-- A place that lies in no span of the keys. -/
def Elsewhere (f : LinearFactor K) (span : Key → Int × Int) (i : Nat) : Prop :=
  ∀ key ∈ f.keys, ¬ ((span key).1 ≤ i ∧ (i : Int) < (span key).1 + (span key).2)

/-- A product with a flat buffer is that with containers: both fail alike, for want of one deviation for
each row, or the new buffer has the new container's blocks and is elsewhere the old one. -/
def SameProduct (f : LinearFactor K) (width : Int) (layout : Option Layout) (span : Key → Int × Int) (scale : K)
    (x y : Vec K) (X Y : Container K) : Prop :=
  ((f.isEmpty = false ∧ ¬ OnePerRow f.model f.rows) ∧ ∃ e,
      f.multiplyHessianAddFlat width layout scale (.ofVec x) (.ofVec y) = .error e ∧
        f.multiplyHessianAdd scale X Y = .error e) ∨
    ∃ y' Z, f.multiplyHessianAddFlat width layout scale (.ofVec x) (.ofVec y) = .ok (.ofVec y') ∧
      f.multiplyHessianAdd scale X Y = .ok Z ∧ y'.size = y.size ∧ f.Reads span Z y' ∧
        ∀ i, f.Elsewhere span i → y'.get i = y.get i

/-- A diagonal on a flat buffer is the container's: both fail alike, for want of one deviation for each
row, or the container's diagonal is added onto the keys' spans and the rest stays. -/
def SameDiagonal (f : LinearFactor K) (width : Int) (layout : Option Layout) (span : Key → Int × Int)
    (d : Vec K) : Prop :=
  ((f.isEmpty = false ∧ ¬ OnePerRow f.model f.rows) ∧ ∃ e,
      f.hessianDiagonalFlat width layout (.ofVec d) = .error e ∧ f.hessianDiagonal = .error e) ∨
    ∃ d', f.hessianDiagonalFlat width layout (.ofVec d) = .ok (.ofVec d') ∧ d'.size = d.size ∧
      (∀ key ∈ f.keys, ∃ t v, f.hessianDiagonal = .ok t ∧ t.find? key = some v ∧ (v.size : Int) = width ∧
        readSpan d' (span key) = readSpan d (span key) + v) ∧
      ∀ i, f.Elsewhere span i → d'.get i = d.get i

section Addressed
variable {f : LinearFactor K} {width : Int} {layout : Option Layout} {span : Key → Int × Int}
  (ha : f.Addressed width layout span)
include ha

omit [ExactScalar K] in
/-- A place lies in the span of one key. -/
theorem Addressed.eq_of_place {k k' : Key} (hkey : k ∈ f.keys) (hkey' : k' ∈ f.keys) {p : Int}
    (hp : (span k).1 ≤ p ∧ p < (span k).1 + (span k).2)
    (hp' : (span k').1 ≤ p ∧ p < (span k').1 + (span k').2) : k = k' := by
  have howns := ha.owns k hkey
  have howns' := ha.owns k' hkey'
  cases layout with
  | some l =>
    exact (ha.apart l rfl).disjoint _ (Table.mem_of_find? howns.1) _ (Table.mem_of_find? howns'.1) p hp.1 hp.2
      hp'.1 hp'.2
  | none =>
    cases k with
    | name s => exact howns.elim
    | number n =>
      cases k' with
      | name s => exact howns'.elim
      | number m =>
        rw [howns.2] at hp
        rw [howns'.2] at hp'
        have hp : width * n ≤ p ∧ p < width * n + width := hp
        have hp' : width * m ≤ p ∧ p < width * m + width := hp'
        -- Both numbers are the quotient of the place by the width.
        have hquot : ∀ i : Int, width * i ≤ p ∧ p < width * i + width → p / width = i := by
          intro i hi
          have hpos : 0 < width := by omega
          rw [Int.ediv_eq_iff_of_pos hpos]
          rw [mul_comm width i] at hi
          exact hi
        rw [← hquot n hp, ← hquot m hp']

variable (hk : f.kind = .uniform width)
include hk

omit [ExactScalar K] in
theorem Addressed.span_eq : ∀ e ∈ f.terms.entries, 0 ≤ (span e.1).1 ∧ (span e.1).2 = e.2.cols := by
  intro e he
  have hcols := cols_of_uniform hk e he
  have howns := ha.owns e.1 (List.mem_map_of_mem he)
  cases layout with
  | some l =>
    obtain ⟨hfind, hwidth⟩ := howns
    exact ⟨(ha.apart l rfl).nonneg _ (Table.mem_of_find? hfind), hwidth.trans hcols.symm⟩
  | none =>
    cases hkey : e.1 with
    | number n =>
      rw [hkey] at howns
      obtain ⟨hn, hspan⟩ := howns
      rw [hspan]
      exact ⟨Int.mul_nonneg (by omega) hn, hcols.symm⟩
    | name s =>
      rw [hkey] at howns
      exact howns.elim

omit [ExactScalar K] in
theorem Addressed.covers {n : Nat} (hn : f.Fit span n) :
    ∀ e ∈ f.terms.entries, Covers n (span e.1) (firstPlace span e.1) e.2.cols := fun e he =>
  covers_of_nonneg (ha.span_eq hk e he).1 (ha.span_eq hk e he).2 (hn e.1 (List.mem_map_of_mem he))

omit [ExactScalar K] in
theorem Addressed.exclusive {e e' : Key × Mat K} (he : e ∈ f.terms.entries) (he' : e' ∈ f.terms.entries)
    (hne : e'.1 ≠ e.1) (c : Nat) (hc : firstPlace span e.1 ≤ c ∧ c < firstPlace span e.1 + e.2.cols) :
    ¬ (firstPlace span e'.1 ≤ c ∧ c < firstPlace span e'.1 + e'.2.cols) := by
  intro hc'
  unfold firstPlace at hc hc'
  obtain ⟨h0, hw⟩ := ha.span_eq hk e he
  obtain ⟨h0', hw'⟩ := ha.span_eq hk e' he'
  exact hne (ha.eq_of_place (List.mem_map_of_mem he') (List.mem_map_of_mem he)
    (p := c) (by omega) (by omega))

theorem Addressed.readSpan_eq {buffer : Vec K} (hfit : f.Fit span buffer.size) {e : Key × Mat K}
    (he : e ∈ f.terms.entries) :
    readSpan buffer (span e.1) = block buffer (firstPlace span e.1) e.2.cols :=
  readSpan_of_covers (ha.covers hk hfit e he)

/-- Vectors of the factor's width are added onto the spans, and onto nothing else. -/
theorem Addressed.addBlocks_spec {y : Vec K} (hfit : f.Fit span y.size) (value : Key × Mat K → Vec K)
    (hv : ∀ e ∈ f.terms.entries, (value e).size = e.2.cols) :
    (∀ e ∈ f.terms.entries,
      readSpan (addBlocks (firstPlace span) value y f.terms.entries) (span e.1) =
        readSpan y (span e.1) + value e) ∧
      ∀ i, f.Elsewhere span i →
        (addBlocks (firstPlace span) value y f.terms.entries).get i = y.get i := by
  refine ⟨fun e he => ?_, fun i hi => get_addBlocks_elsewhere fun e he hin => ?_⟩
  · have hsize := size_addBlocks (firstPlace span) value y f.terms.entries
    rw [ha.readSpan_eq hk (hsize.symm ▸ hfit) he, ha.readSpan_eq hk hfit he, ← hv e he]
    refine block_addBlocks he f.terms.distinct ?_ fun e' he' hne c hc => ?_
    · rw [hv e he]
      exact (ha.covers hk hfit e he).inside
    · rw [hv e he] at hc
      rw [hv e' he']
      exact ha.exclusive hk he he' hne c hc
  · obtain ⟨h0, hw⟩ := ha.span_eq hk e he
    rw [hv e he, firstPlace] at hin
    exact hi e.1 (List.mem_map_of_mem he) (by omega)

theorem Addressed.sameProduct (scale : K) {x y : Vec K} {X Y : Container K} (hx : f.Fit span x.size)
    (hy : f.Fit span y.size) (hX : f.Reads span X x) (hY : f.Reads span Y y) :
    f.SameProduct width layout span scale x y X Y := by
  unfold SameProduct
  cases hne : f.isEmpty with
  | true =>
    refine .inr ⟨y, Y, ?_, ?_, rfl, hY, fun _ _ => rfl⟩
    · rw [multiplyHessianAddFlat, hne]
      rfl
    · rw [multiplyHessianAdd, hne]
      rfl
  | false =>
    have hflat := multiplyHessianAddFlat_eq (fun e he => flatSpan_of_owns (ha.owns e.1 (List.mem_map_of_mem he)))
      (ha.covers hk hx) (ha.covers hk hy) hne scale
    have hcontainer := multiplyHessianAdd_eq (x := X) (b := x) (fun e he => by
      rw [← ha.readSpan_eq hk hx he]
      exact hX e.1 (List.mem_map_of_mem he)) hne scale Y
    rw [hflat, hcontainer]
    cases htwice : whitenTwice f.model (f.image (firstPlace span) x) with
    | error e =>
      refine .inl ⟨⟨rfl, fun hone => ?_⟩, e, rfl, rfl⟩
      rw [whitenTwice_of_onePerRow hone (size_image f _ x)] at htwice
      cases htwice
    | ok u =>
      have hu : (u.scale scale).size = f.rows :=
        (Vec.size_scale _ _).trans (size_of_whitenTwice (size_image f _ x) htwice)
      obtain ⟨hspans, helse⟩ := ha.addBlocks_spec hk hy (fun e => e.2.transposeMulVec (u.scale scale))
        fun e _ => Mat.size_transposeMulVec _ _
      obtain ⟨Z, hZ, hfound, -⟩ := addTransposed_of_found (y := Y) (v := fun e => readSpan y (span e.1))
        (fun e he => (f.rows_eq e he).trans hu.symm) f.terms.distinct
        fun e he => ⟨hY e.1 (List.mem_map_of_mem he), by rw [ha.readSpan_eq hk hy he, size_block]⟩
      simp only [ok_bind]
      refine .inr ⟨f.addTranspose (firstPlace span) (u.scale scale) y, Z, rfl, hZ, size_addBlocks .., ?_, helse⟩
      intro key hkey
      obtain ⟨e, he, rfl⟩ := List.mem_map.mp hkey
      rw [hfound e he]
      exact congrArg (fun v => some (Tensor.ofVec v)) (hspans e he).symm

theorem Addressed.sameDiagonal {d : Vec K} (hd : f.Fit span d.size) :
    f.SameDiagonal width layout span d := by
  unfold SameDiagonal
  cases hne : f.isEmpty with
  | true =>
    have hnil : f.terms.entries = [] := List.isEmpty_iff.mp hne
    refine .inr ⟨d, ?_, rfl, fun key hkey => ?_, fun _ _ => rfl⟩
    · rw [hessianDiagonalFlat, hne]
      rfl
    · rw [keys, Table.keys, hnil] at hkey
      cases hkey
  | false =>
    rw [hessianDiagonalFlat_eq (fun e he => flatSpan_of_owns (ha.owns e.1 (List.mem_map_of_mem he)))
      (ha.covers hk hd) hne, LinearFactor.hessianDiagonal]
    cases hsystem : f.whitenedSystem with
    | error e =>
      refine .inl ⟨⟨rfl, fun hone => ?_⟩, e, rfl, rfl⟩
      obtain ⟨t, ht, -⟩ := whitenedSystem_of_onePerRow hone
      cases hsystem.symm.trans ht
    | ok s =>
      obtain ⟨t, b⟩ := s
      obtain ⟨hspans, helse⟩ := ha.addBlocks_spec hk hd (fun e => (f.scaling.mat e.2).columnSquares)
        fun e _ => size_columnSquares f e.2
      simp only [ok_bind]
      refine .inr ⟨f.addSquares (firstPlace span) d, rfl, size_addBlocks .., fun key hkey => ?_, helse⟩
      obtain ⟨e, he, rfl⟩ := List.mem_map.mp hkey
      have hmem : (e.1, f.scaling.mat e.2) ∈ t.entries := by
        rw [(whitenedSystem_eq hsystem).1]
        exact List.mem_map_of_mem he
      refine ⟨t.mapValues fun _ A => A.columnSquares, (f.scaling.mat e.2).columnSquares, rfl, ?_, ?_, hspans e he⟩
      · rw [Table.find?_mapValues, Table.find?_of_mem hmem]
        rfl
      · rw [size_columnSquares]
        exact cols_of_uniform hk e he

end Addressed

/-! ### Stride and offsets -/

end LinearFactor

/-- An offset table of equal steps gives every number the span that it has without a layout. -/
theorem Layout.betweenOffsets_stride {width : Int} (hw : 0 ≤ width) (m next : Nat)
    (spans : Table Key (Int × Int)) :
    ∃ l, betweenOffsets spans next ((List.range' next (m + 1)).map fun i : Nat => width * i) = .ok l ∧
      (∀ n : Nat, next ≤ n → n < next + m → l.spans.find? (.number n) = some (width * n, width)) ∧
      ∀ n : Nat, n < next → l.spans.find? (.number n) = spans.find? (.number n) := by
  induction m generalizing next spans with
  | zero => exact ⟨⟨spans, width * next⟩, rfl, fun n h h' => absurd h' (by omega), fun _ _ => rfl⟩
  | succ m ih =>
    have hstep : width * ((next + 1 : Nat) : Int) = width * next + width := by
      push_cast
      ring
    obtain ⟨l, hl, hnew, hold⟩ := ih (next + 1) (spans.insert (.number next) (width * next, width))
    refine ⟨l, ?_, fun n h h' => ?_, fun n h => ?_⟩
    · rw [List.range'_succ, List.range'_succ, List.map_cons, List.map_cons, betweenOffsets, if_neg (by omega),
        hstep, add_sub_cancel_left, ← hstep]
      exact hl
    · rcases Nat.eq_or_lt_of_le h with rfl | h
      · rw [hold next (by omega), Table.find?_insert, if_pos rfl]
      · exact hnew n h (by omega)
    · have hne : Key.number next ≠ .number n := by
        intro heq
        injection heq with heq
        omega
      rw [hold n (by omega), Table.find?_insert, if_neg hne]

namespace LinearFactor

/-- The offsets of blocks of one width. -/
def strideOffsets (width : Int) (count : Nat) : List Count :=
  (List.range (count + 1)).map fun i : Nat => .whole (width * i)

/-- **Without a layout a factor works as on the layout of equal steps**, whatever the buffers. -/
theorem stride_eq_offsets {f : LinearFactor K} {width : Int} (hw : 0 ≤ width) {count : Nat}
    (hkeys : ∀ key ∈ f.keys, ∃ n < count, key = .number n) :
    ∃ l, Layout.ofOffsets (strideOffsets width count) = .ok l ∧
      f.multiplyHessianAddFlat width none = f.multiplyHessianAddFlat width (some l) ∧
      f.hessianDiagonalFlat width none = f.hessianDiagonalFlat width (some l) := by
  obtain ⟨l, hl, hspans, -⟩ := Layout.betweenOffsets_stride hw count 0 Table.empty
  have hoffsets : Layout.ofOffsets (strideOffsets width count) = .ok l := by
    have hgiven : (strideOffsets width count).mapM Count.truncate =
        .ok ((List.range' 0 (count + 1)).map fun i : Nat => width * i) := by
      rw [mapM_eq_ok, strideOffsets, List.range_eq_range', List.map_map, List.map_map]
      rfl
    rw [Layout.ofOffsets, hgiven]
    exact hl
  have hspan : ∀ key ∈ f.keys, flatSpan width none key = flatSpan width (some l) key := by
    intro key hkey
    obtain ⟨n, hn, rfl⟩ := hkeys key hkey
    have hnone : Owns width none (.number n) (width * n, width) := ⟨Int.natCast_nonneg n, rfl⟩
    have hsome : Owns width (some l) (.number n) (width * n, width) :=
      ⟨hspans n (Nat.zero_le n) (by omega), rfl⟩
    rw [flatSpan_of_owns hnone, flatSpan_of_owns hsome]
  have hflat : ∀ shape, flatSpans width none shape f.keys = flatSpans width (some l) shape f.keys := by
    intro shape
    unfold flatSpans
    refine mapM_congr fun key hkey => ?_
    rw [hspan key hkey]
  refine ⟨l, hoffsets, ?_, ?_⟩
  · funext scale x y
    simp only [multiplyHessianAddFlat, hflat]
  · funext d
    simp only [hessianDiagonalFlat, hflat]

/-- **Flat buffers serve like containers**, with a layout or without, and without a layout like with the
layout of equal steps. -/
theorem flat_eq_container {f : LinearFactor K} {width : Int} (hk : f.kind = .uniform width) :
    (∀ (layout : Option Layout) (span : Key → Int × Int), f.Addressed width layout span →
      (∀ (scale : K) (x y : Vec K) (X Y : Container K), f.Fit span x.size → f.Fit span y.size →
        f.Reads span X x → f.Reads span Y y → f.SameProduct width layout span scale x y X Y) ∧
      ∀ d : Vec K, f.Fit span d.size → f.SameDiagonal width layout span d) ∧
    (0 ≤ width → ∀ count : Nat, (∀ key ∈ f.keys, ∃ n < count, key = .number n) →
      ∃ l, Layout.ofOffsets (strideOffsets width count) = .ok l ∧
        f.multiplyHessianAddFlat width none = f.multiplyHessianAddFlat width (some l) ∧
        f.hessianDiagonalFlat width none = f.hessianDiagonalFlat width (some l)) :=
  ⟨fun _ _ ha => ⟨fun scale _ _ _ _ hx hy hX hY => ha.sameProduct hk scale hx hy hX hY,
    fun _ hd => ha.sameDiagonal hk hd⟩, fun hw _ hkeys => stride_eq_offsets hw hkeys⟩

/-- Two keys of two places, and two unequal deviations. -/
def evenPair : LinearFactor ℚ where
  kind := .uniform 2
  terms := ⟨[(.number 2, Mat.ofFn 2 2 fun i j => i + j), (.number 0, Mat.ofFn 2 2 fun i j => 2 * i - j)], by
    show [Key.number 2, Key.number 0].Nodup
    decide⟩
  rhs := Vec.ofFn 2 fun i => 3 - i
  model := some (.diagonal (Vec.ofFn 2 fun i => i + 2))
  rows_eq := by
    intro e he
    simp only [List.mem_cons, List.not_mem_nil, or_false] at he
    rcases he with rfl | rfl <;> exact (Vec.size_ofFn 2 _).symm
  model_rows := fun m hm => by
    cases hm
    rfl
  fits := by decide

theorem keys_evenPair : ∀ key ∈ evenPair.keys, key = .number 2 ∨ key = .number 0 := by
  intro key hkey
  simpa [evenPair, keys, Table.keys] using hkey

/-- A place before each of the pair's spans, which stand in the other order. -/
def gapped : Layout :=
  ⟨⟨[(.number 0, (4, 2)), (.number 2, (1, 2))], by decide⟩, 6⟩

theorem apart_gapped : gapped.Apart where
  nonneg := by decide
  disjoint := by
    intro e he e' he' p hp hq hp' hq'
    simp only [gapped, List.mem_cons, List.not_mem_nil, or_false] at he he'
    rcases he with rfl | rfl <;> rcases he' with rfl | rfl
    · rfl
    · exact absurd hp (by show ¬ (4 : Int) ≤ p; have : p < 1 + 2 := hq'; omega)
    · exact absurd hp' (by show ¬ (4 : Int) ≤ p; have : p < 1 + 2 := hq; omega)
    · rfl

theorem addressed_gapped : evenPair.Addressed 2 (some gapped) gapped.spanOf where
  owns := by
    intro key hkey
    rcases keys_evenPair key hkey with rfl | rfl <;> exact ⟨rfl, rfl⟩
  apart := by
    intro l hl
    cases hl
    exact apart_gapped

/-- Buffers of seven places, one more than the layout needs. -/
theorem flat_eq_container_evenPair :
    evenPair.kind = .uniform 2 ∧
    (∃ y' Z, evenPair.multiplyHessianAddFlat 2 (some gapped) 3 (.ofVec (Vec.ofFn 7 fun i => i))
          (.ofVec (Vec.ofFn 7 fun _ => 1)) = .ok (.ofVec y') ∧
        evenPair.multiplyHessianAdd 3 (evenPair.blocksAt gapped.spanOf (Vec.ofFn 7 fun i => i))
          (evenPair.blocksAt gapped.spanOf (Vec.ofFn 7 fun _ => 1)) = .ok Z ∧
        y'.size = 7 ∧ evenPair.Reads gapped.spanOf Z y' ∧ y'.get 3 = 1) ∧
    (∃ d', evenPair.hessianDiagonalFlat 2 (some gapped) (.ofVec (Vec.ofFn 7 fun _ => 1)) = .ok (.ofVec d') ∧
        d'.get 3 = 1) ∧
    ∃ l, Layout.ofOffsets (strideOffsets 2 3) = .ok l ∧
      evenPair.multiplyHessianAddFlat 2 none = evenPair.multiplyHessianAddFlat 2 (some l) ∧
      evenPair.hessianDiagonalFlat 2 none = evenPair.hessianDiagonalFlat 2 (some l) := by
  have hone : OnePerRow evenPair.model evenPair.rows := fun m hm => by
    cases hm
    rfl
  have hfit : ∀ v : Vec ℚ, v.size = 7 → evenPair.Fit gapped.spanOf v.size := by
    intro v hv key hkey
    rw [hv]
    rcases keys_evenPair key hkey with rfl | rfl <;> decide
  have helse : evenPair.Elsewhere gapped.spanOf 3 := by
    intro key hkey
    rcases keys_evenPair key hkey with rfl | rfl <;> decide
  have hkeys : ∀ key ∈ evenPair.keys, ∃ n < 3, key = .number (n : Nat) := by
    intro key hkey
    rcases keys_evenPair key hkey with rfl | rfl
    · exact ⟨2, by omega, rfl⟩
    · exact ⟨0, by omega, rfl⟩
  have hkind : evenPair.kind = .uniform 2 := rfl
  obtain ⟨hforms, hstride⟩ := flat_eq_container hkind
  obtain ⟨hproduct, hdiagonal⟩ := hforms _ _ addressed_gapped
  obtain ⟨y', Z, hy', hZ, hsize, hreads, hkeep⟩ := (hproduct 3 (Vec.ofFn 7 fun i => i) (Vec.ofFn 7 fun _ => 1) _ _
    (hfit _ rfl) (hfit _ rfl) (reads_blocksAt _ _ _) (reads_blocksAt _ _ _)).resolve_left fun h => h.1.2 hone
  obtain ⟨d', hd', -, -, hkeep'⟩ := (hdiagonal (Vec.ofFn 7 fun _ => 1) (hfit _ rfl)).resolve_left
    fun h => h.1.2 hone
  exact ⟨hkind, ⟨y', Z, hy', hZ, hsize, hreads, hkeep 3 helse⟩, ⟨d', hd', hkeep' 3 helse⟩,
    hstride (by decide) 3 hkeys⟩

/-- One row that is weighed twice, for a key of one place. -/
def doublyWeighed : LinearFactor ℚ where
  kind := .uniform 1
  terms := ⟨[(.number 0, Mat.ofFn 1 1 fun _ _ => 1)], List.nodup_singleton _⟩
  rhs := Vec.ofFn 1 fun _ => 1
  model := some (.constrained ⟨[1, 2], #[1, 2], rfl⟩ 1000)
  rows_eq := fun e he => by
    rw [List.mem_singleton.mp he]
    exact (Vec.size_ofFn 1 _).symm
  model_rows := fun m hm => by
    cases hm
    rfl
  fits := by decide

/-- Such a factor cannot multiply, a span of two places does not serve a key of one, and steps below
zero make no layout. -/
theorem flat_doublyWeighed :
    doublyWeighed.kind = .uniform 1 ∧ doublyWeighed.Addressed 1 none (fun _ => (0, 1)) ∧
      doublyWeighed.Fit (fun _ => (0, 1)) 1 ∧
      doublyWeighed.multiplyHessianAddFlat 1 none 1 (.ofVec ⟨#[1]⟩) (.ofVec ⟨#[0]⟩) =
        .error (.whitenRows 1 [2]) ∧
      doublyWeighed.hessianDiagonalFlat 1 (some ⟨⟨[(.number 0, (0, 2))], by decide⟩, 2⟩)
        (.ofVec ⟨#[0, 0]⟩) = .error (.spanWidth (.number 0) 2 1) ∧
      Layout.ofOffsets (strideOffsets (-1) 1) = .error .layoutDescends := by
  have hkeys : ∀ key ∈ doublyWeighed.keys, key = .number 0 := by
    intro key hkey
    simpa [doublyWeighed, keys, Table.keys] using hkey
  have hstride : doublyWeighed.Addressed 1 none fun _ => (0, 1) := by
    constructor
    · intro key hkey
      rw [hkeys key hkey]
      exact ⟨by decide, rfl⟩
    · intro l hl
      cases hl
  exact ⟨rfl, hstride, fun _ _ => le_rfl, rfl, rfl, rfl⟩

end LinearFactor
end BundleAdjustment
