import BundleAdjustment.Proofs.Coordinates
import BundleAdjustment.Linear.Layout
import BundleAdjustment.Proofs.Faults

/-!
Blocks of a flat buffer.

A span that `Covers` consecutive places of a buffer is read as a `block` and added onto by
`addBlock`, and blocks added one after the other add up at every place (`get_addBlocks`). In a
`Proper` layout every span lies within the buffer and no place belongs to two keys, so every key
`Holds` as many places as its span is long; layouts of widths and of offsets that are not negative
are proper.
-/
namespace BundleAdjustment.Layout

def length (l : Layout) : Nat := l.size.toNat

/-- The offset and the length of a key's span, zero for a key without any. -/
def spanOf (l : Layout) (key : Key) : Int × Int := (l.spans.find? key).getD (0, 0)

def start (l : Layout) (key : Key) : Nat := place l.length (l.spanOf key).1

structure Proper (l : Layout) : Prop where
  size_nonneg : 0 ≤ l.size
  inside : ∀ e ∈ l.spans.entries, 0 ≤ e.2.1 ∧ 0 ≤ e.2.2 ∧ e.2.1 + e.2.2 ≤ l.size
  disjoint : ∀ e ∈ l.spans.entries, ∀ e' ∈ l.spans.entries, ∀ p,
    e.2.1 ≤ p → p < e.2.1 + e.2.2 → e'.2.1 ≤ p → p < e'.2.1 + e'.2.2 → e.1 = e'.1

theorem proper_nil {n : Int} (h : 0 ≤ n) : Proper ⟨Table.empty, n⟩ where
  size_nonneg := h
  inside := fun _ he => nomatch he
  disjoint := fun _ he => nomatch he

/-- The places behind a proper layout may be given to one more key. -/
theorem Proper.insert {spans : Table Key (Int × Int)} {size n : Int} (h : Proper ⟨spans, size⟩)
    (key : Key) (hn : 0 ≤ n) : Proper ⟨spans.insert key (size, n), size + n⟩ := by
  have hsize : 0 ≤ size := h.size_nonneg
  refine ⟨Int.add_nonneg hsize hn, ?_, ?_⟩
  · intro e he
    rcases Table.mem_insert he with rfl | he
    · exact ⟨hsize, hn, le_rfl⟩
    · obtain ⟨h0, hl, hs⟩ := h.inside e he
      exact ⟨h0, hl, le_trans hs (le_add_of_nonneg_right hn)⟩
  · intro e he e' he' p hp hp' hq hq'
    rcases Table.mem_insert he with rfl | he
    · rcases Table.mem_insert he' with rfl | he'
      · rfl
      · have hs : e'.2.1 + e'.2.2 ≤ size := (h.inside e' he').2.2
        have hp : size ≤ p := hp
        omega
    · rcases Table.mem_insert he' with rfl | he'
      · have hs : e.2.1 + e.2.2 ≤ size := (h.inside e he).2.2
        have hq : size ≤ p := hq
        omega
      · exact h.disjoint e he e' he' p hp hp' hq hq'

theorem proper_ofWidths {keys : List Key} {widths : List Count} {l : Layout}
    (h : ofWidths keys widths = .ok l)
    (hn : ∀ w ∈ widths, ∀ n, w.truncate = .ok n → 0 ≤ n) : l.Proper := by
  have hfold : ∀ (pairs : List (Key × Count)) (l₀ : Layout), l₀.Proper →
      (∀ e ∈ pairs, ∀ n, e.2.truncate = .ok n → 0 ≤ n) →
      pairs.foldlM (fun l e => l.extend e.1 e.2) l₀ = .ok l → l.Proper := by
    intro pairs
    induction pairs with
    | nil =>
      intro l₀ hl₀ _ h
      cases h
      exact hl₀
    | cons e rest ih =>
      intro l₀ hl₀ hn h
      rw [List.foldlM_cons] at h
      obtain ⟨l₁, hl₁, h⟩ := bind_eq_ok.mp h
      refine ih l₁ ?_ (fun e he => hn e (List.mem_cons_of_mem _ he)) h
      unfold extend at hl₁
      split at hl₁
      · cases hl₁
      · obtain ⟨n, hw, hl₁⟩ := bind_eq_ok.mp hl₁
        rw [← pure_eq_ok.mp hl₁]
        exact hl₀.insert e.1 (hn e (List.mem_cons_self ..) n hw)
  unfold ofWidths at h
  split at h
  · exact hfold _ _ (proper_nil le_rfl) (fun e he => hn e.2 (List.of_mem_zip he).2) h
  · cases h

theorem proper_betweenOffsets {offsets : List Int} {spans : Table Key (Int × Int)} {next : Nat}
    {a : Int} {l : Layout} (hs : Proper ⟨spans, a⟩) (h : betweenOffsets spans next (a :: offsets) = .ok l) :
    l.Proper := by
  induction offsets generalizing spans next a with
  | nil =>
    cases h
    exact hs
  | cons b rest ih =>
    unfold betweenOffsets at h
    split at h
    · cases h
    · rename_i hle
      refine ih ?_ h
      have hins := hs.insert (.number next) (Int.sub_nonneg_of_le (not_lt.mp hle))
      rwa [add_sub_cancel] at hins

theorem proper_ofOffsets {offsets : List Count} {l : Layout} (h : ofOffsets offsets = .ok l)
    (hn : ∀ w ∈ offsets, ∀ n, w.truncate = .ok n → 0 ≤ n) : l.Proper := by
  obtain ⟨given, hg, hb⟩ := bind_eq_ok.mp h
  cases given with
  | nil =>
    cases hb
    exact proper_nil le_rfl
  | cons a rest =>
    have hmap := mapM_eq_ok.mp hg
    cases offsets with
    | nil => cases hmap
    | cons w offsets =>
      simp only [List.map_cons, List.cons.injEq] at hmap
      exact proper_betweenOffsets (proper_nil (hn w (List.mem_cons_self ..) a hmap.1)) hb

/-! ### Places of a key -/

/-- A span is the `n` places from `start` on, in a buffer of the given length. -/
structure Covers (length : Nat) (span : Int × Int) (start n : Nat) : Prop where
  width : span.2 = n
  fits : span.1 + span.2 ≤ length
  first : place length span.1 = start
  last : place length (span.1 + span.2) = start + n

theorem Covers.inside {length : Nat} {span : Int × Int} {start n : Nat} (h : Covers length span start n) :
    start + n ≤ length := by
  have hlast := h.last
  unfold place at hlast
  omega

theorem covers_of_nonneg {length n : Nat} {span : Int × Int} (h0 : 0 ≤ span.1) (hn : span.2 = n)
    (h : span.1 + span.2 ≤ length) : Covers length span span.1.toNat n := by
  refine ⟨hn, h, ?_, ?_⟩
  · unfold place
    omega
  · unfold place
    omega

/-- A key has that many places within the buffer. -/
structure Holds (l : Layout) (key : Key) (n : Nat) : Prop where
  span : l.span key = .ok (l.spanOf key)
  covers : Covers l.length (l.spanOf key) (l.start key) n

theorem Holds.inside {l : Layout} {key : Key} {n : Nat} (h : l.Holds key n) : l.start key + n ≤ l.length :=
  h.covers.inside

theorem mem_of_span {l : Layout} {key : Key} {s : Int × Int} (h : l.span key = .ok s) :
    (key, s) ∈ l.spans.entries ∧ l.spanOf key = s := by
  unfold span at h
  unfold spanOf
  cases hf : l.spans.find? key with
  | none =>
    rw [hf] at h
    cases h
  | some s' =>
    rw [hf] at h
    cases h
    exact ⟨Table.mem_of_find? hf, rfl⟩

theorem eq_spanOf_of_mapM {l : Layout} {keys : List Key} {spans : List (Int × Int)}
    (h : keys.mapM l.span = .ok spans) : spans = keys.map l.spanOf := by
  induction keys generalizing spans with
  | nil =>
    cases h
    rfl
  | cons key rest ih =>
    rw [List.mapM_cons] at h
    obtain ⟨s, hs, h⟩ := bind_eq_ok.mp h
    obtain ⟨given, hgiven, h⟩ := bind_eq_ok.mp h
    rw [← pure_eq_ok.mp h, ih hgiven, List.map_cons, (mem_of_span hs).2]

theorem fits_of_checkFits {n : Nat} {key : Key} {s : Int × Int} (h : checkFits [n] key s = .ok ()) :
    s.1 + s.2 ≤ n := by
  unfold checkFits at h
  split at h
  · rename_i hfits
    exact of_decide_eq_true hfits
  · cases h

theorem checkedSpan_eq_ok {l : Layout} {n : Nat} {key : Key} {s : Int × Int}
    (h : l.checkedSpan [n] key = .ok s) :
    l.span key = .ok (l.spanOf key) ∧ s = l.spanOf key ∧ s.1 + s.2 ≤ n := by
  obtain ⟨s', hs', h⟩ := bind_eq_ok.mp h
  obtain ⟨u, hfits, h⟩ := bind_eq_ok.mp h
  cases h
  rw [(mem_of_span hs').2]
  exact ⟨hs', rfl, fits_of_checkFits hfits⟩

theorem Proper.start_eq {l : Layout} (h : l.Proper) {key : Key} {s : Int × Int} (hs : l.span key = .ok s) :
    l.start key = s.1.toNat := by
  obtain ⟨hmem, hspan⟩ := mem_of_span hs
  obtain ⟨h0, hl, hend⟩ : 0 ≤ s.1 ∧ 0 ≤ s.2 ∧ s.1 + s.2 ≤ l.size := h.inside _ hmem
  rw [start, hspan]
  unfold place length
  omega

theorem Proper.holds {l : Layout} (h : l.Proper) {key : Key} {o : Int} {n : Nat}
    (hs : l.span key = .ok (o, n)) : l.Holds key n := by
  obtain ⟨hmem, hspan⟩ := mem_of_span hs
  obtain ⟨h0, -, hend⟩ := h.inside _ hmem
  have hfits : o + n ≤ l.length := by
    have hend : o + n ≤ l.size := hend
    unfold length
    omega
  refine ⟨by rw [hspan, hs], ?_⟩
  rw [hspan, h.start_eq hs]
  exact covers_of_nonneg h0 rfl hfits

/-- A place belongs to one key. -/
theorem Proper.eq_of_place {l : Layout} (h : l.Proper) {k k' : Key} {n n' c : Nat} (hk : l.Holds k n)
    (hk' : l.Holds k' n') (hc : l.start k ≤ c ∧ c < l.start k + n)
    (hc' : l.start k' ≤ c ∧ c < l.start k' + n') : k = k' := by
  have hspan : ∀ {key : Key} {m : Nat}, l.Holds key m → l.start key ≤ c ∧ c < l.start key + m →
      (key, l.spanOf key) ∈ l.spans.entries ∧ (l.spanOf key).1 ≤ c ∧
        (c : Int) < (l.spanOf key).1 + (l.spanOf key).2 := by
    intro key m hkey hin
    have hmem := (mem_of_span hkey.span).1
    have h0 : 0 ≤ (l.spanOf key).1 := (h.inside _ hmem).1
    have hstart := h.start_eq hkey.span
    have hwidth := hkey.covers.width
    exact ⟨hmem, by omega, by omega⟩
  obtain ⟨hmem, hle, hlt⟩ := hspan hk hc
  obtain ⟨hmem', hle', hlt'⟩ := hspan hk' hc'
  exact h.disjoint _ hmem _ hmem' c hle hlt hle' hlt'

section Buffers
variable {α : Type} [Scalar α]

def block (buffer : Vec α) (start n : Nat) : Vec α := Vec.ofFn n fun i => buffer.get (start + i)

def addBlock (buffer : Vec α) (start : Nat) (value : Vec α) : Vec α :=
  Vec.ofFn buffer.size fun i =>
    if start ≤ i ∧ i < start + value.size then buffer.get i + value.get (i - start) else buffer.get i

theorem size_addBlock (buffer : Vec α) (start : Nat) (value : Vec α) :
    (addBlock buffer start value).size = buffer.size :=
  Vec.size_ofFn _ _

theorem size_block (buffer : Vec α) (start n : Nat) : (block buffer start n).size = n := Vec.size_ofFn n _

omit [Scalar α] in
theorem checkFits_of_covers {length n start : Nat} {span : Int × Int} (h : Covers length span start n)
    (key : Key) : checkFits [length] key span = .ok () := by
  have hfits : fits span [length] = true := decide_eq_true h.fits
  rw [checkFits, if_pos hfits]

theorem readSpan_of_covers {span : Int × Int} {start n : Nat} {buffer : Vec α}
    (h : Covers buffer.size span start n) : readSpan buffer span = block buffer start n := by
  have hcut : min (start + n) buffer.size - start = n := by
    have := h.inside
    omega
  simp only [readSpan, h.first, h.last, Vec.slice, hcut]
  rfl

theorem addSpan_of_covers {span : Int × Int} {start : Nat} {buffer value : Vec α}
    (h : Covers buffer.size span start value.size) :
    addSpan buffer span value = .ok (addBlock buffer start value) := by
  have hin := h.inside
  have hplaces : addSpan buffer ((start : Int), (value.size : Int)) value = .ok (addBlock buffer start value) :=
    addSpan_natCast hin
  have hfirst : place buffer.size (start : Int) = start := place_natCast (by omega)
  have hlast : place buffer.size ((start : Int) + value.size) = start + value.size := by
    rw [← Int.natCast_add]
    exact place_natCast hin
  simp only [addSpan, hfirst, hlast] at hplaces
  simp only [addSpan, h.first, h.last]
  exact hplaces

theorem gather_of_holds {l : Layout} {key : Key} {n : Nat} {buffer : Vec α} (h : l.Holds key n)
    (hb : buffer.size = l.length) :
    l.gather (.ofVec buffer) key = .ok (block buffer (l.start key) n) := by
  rw [gather, checkedSpan, h.span, Tensor.shape_ofVec, hb]
  simp only [ok_bind, checkFits_of_covers h.covers]
  exact congrArg Except.ok (readSpan_of_covers (hb.symm ▸ h.covers))

theorem scatterAdd_of_holds {l : Layout} {key : Key} {buffer value : Vec α} (h : l.Holds key value.size)
    (hb : buffer.size = l.length) :
    l.scatterAdd (.ofVec buffer) key (.ofVec value) = .ok (addBlock buffer (l.start key) value) := by
  rw [scatterAdd, checkedSpan, h.span, Tensor.shape_ofVec, hb]
  simp only [ok_bind, checkFits_of_covers h.covers]
  show (if (value.size : Int) = (l.spanOf key).2 then _ else _) = _
  rw [if_pos h.covers.width.symm]
  exact addSpan_of_covers (hb.symm ▸ h.covers)

end Buffers

end BundleAdjustment.Layout
