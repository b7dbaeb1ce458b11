import BundleAdjustment.Proofs.Linear.Spans
import BundleAdjustment.Linear.Factor.Flat

/-!
Accesses that stay within their span.

An access to a layout's buffer is safe if it fails or touches exactly the places of the key's span, all
of them within the buffer. The check in front of an access looks at the span's end only, so its start
and its length have to be sound by themselves: `safe_iff` says that a layout is safe exactly if no span
is shorter than zero and none that has places begins before the buffer. For the layouts that can be
built this is a condition on the numbers they are built from (`safe_iff_built`).
-/
namespace BundleAdjustment.Layout

/-- The places of a span are places of a buffer of `n` entries. -/
def Within (n : Nat) (span : Int × Int) : Prop :=
  0 ≤ span.2 ∧ ∀ p, span.1 ≤ p → p < span.1 + span.2 → 0 ≤ p ∧ p < n

section Access
variable {α : Type} [Scalar α]

/-- What was read is the entries at the places of a span, one for each. -/
structure Reads (buffer : Vec α) (span : Int × Int) (v : Vec α) : Prop where
  within : Within buffer.size span
  size : (v.size : Int) = span.2
  get : ∀ i < v.size, v.get i = buffer.get (span.1 + i).toNat

/-- What was written differs from the buffer at the places of a span only, by the value added there. -/
structure Adds (buffer : Vec α) (span : Int × Int) (value out : Vec α) : Prop where
  within : Within buffer.size span
  size : out.size = buffer.size
  added : ∀ i < value.size,
    out.get (span.1 + i).toNat = buffer.get (span.1 + i).toNat + value.get i
  kept : ∀ p : Nat, ((p : Int) < span.1 ∨ span.1 + span.2 ≤ p) → out.get p = buffer.get p

end Access

/-- Reading, adding, and the spans that the flat operations of a factor go by, fail or touch exactly
the places of a span. -/
structure Safe (α : Type) [Scalar α] (l : Layout) : Prop where
  gather : ∀ (buffer v : Vec α) (key : Key), l.gather (.ofVec buffer) key = .ok v →
    ∃ s, l.span key = .ok s ∧ Reads buffer s v
  scatterAdd : ∀ (buffer out : Vec α) (value : Tensor α) (key : Key),
    l.scatterAdd (.ofVec buffer) key value = .ok out →
    ∃ s, l.span key = .ok s ∧ value.shape.map Int.ofNat = [s.2] ∧ Adds buffer s value.flatten out
  flat : ∀ (width : Int) (n : Nat) (keys : List Key) (spans : List (Int × Int)),
    LinearFactor.flatSpans width (some l) [n] keys = .ok spans →
    keys.mapM l.span = .ok spans ∧ ∀ s ∈ spans, s.2 = width ∧
      ∀ buffer : Vec α, buffer.size = n → Reads buffer s (readSpan buffer s) ∧
        ∀ value : Vec α, (value.size : Int) = width →
          ∃ out, addSpan buffer s value = .ok out ∧ Adds buffer s value out

/-- A span that has a length, and a start within the buffer if it has places. -/
def Sound (span : Int × Int) : Prop := 0 ≤ span.2 ∧ (0 < span.2 → 0 ≤ span.1)

instance (span : Int × Int) : Decidable (Sound span) := inferInstanceAs (Decidable (_ ∧ _))

/-! ### Sound spans -/

theorem Sound.covers {s : Int × Int} (h : Sound s) {n : Nat} (hfits : s.1 + s.2 ≤ n) :
    Covers n s (place n s.1) s.2.toNat := by
  obtain ⟨hlen, hstart⟩ := h
  refine ⟨(Int.toNat_of_nonneg hlen).symm, hfits, rfl, ?_⟩
  rcases hlen.eq_or_lt with h0 | hpos
  · rw [← h0, add_zero]
    rfl
  · have := hstart hpos
    unfold place
    omega

theorem Sound.within {s : Int × Int} (h : Sound s) {n : Nat} (hfits : s.1 + s.2 ≤ n) : Within n s := by
  refine ⟨h.1, fun p hle hlt => ?_⟩
  have := h.2 (by omega)
  omega

/-- A sound span with places begins at its offset. -/
theorem Sound.place_eq {s : Int × Int} (h : Sound s) {n : Nat} (hfits : s.1 + s.2 ≤ n) (hpos : 0 < s.2) :
    (place n s.1 : Int) = s.1 := by
  have := h.2 hpos
  unfold place
  omega

section Access
variable {α : Type} [Scalar α] {buffer value : Vec α} {s : Int × Int}

theorem Sound.reads (h : Sound s) (hfits : s.1 + s.2 ≤ buffer.size) :
    Reads buffer s (readSpan buffer s) := by
  rw [readSpan_of_covers (h.covers hfits)]
  refine ⟨h.within hfits, ?_, fun i hi => ?_⟩
  · rw [size_block]
    exact Int.toNat_of_nonneg h.1
  · rw [size_block] at hi
    have hplace := h.place_eq hfits (by omega)
    have hi' : (s.1 + i).toNat = place buffer.size s.1 + i := by omega
    rw [block, Vec.get_ofFn hi, hi']

theorem Sound.adds (h : Sound s) (hfits : s.1 + s.2 ≤ buffer.size) (hv : (value.size : Int) = s.2) :
    ∃ out, addSpan buffer s value = .ok out ∧ Adds buffer s value out := by
  have hsize : value.size = s.2.toNat := by omega
  have hcovers := h.covers hfits
  have hinside := hcovers.inside
  refine ⟨_, addSpan_of_covers (hsize ▸ hcovers), h.within hfits, size_addBlock .., fun i hi => ?_,
    fun p hp => ?_⟩
  · have hplace := h.place_eq hfits (by omega)
    have hi' : (s.1 + i).toNat = place buffer.size s.1 + i := by omega
    rw [hi', addBlock, Vec.get_ofFn (by omega), if_pos (by omega), Nat.add_sub_cancel_left]
  · by_cases hp' : p < buffer.size
    · rw [addBlock, Vec.get_ofFn hp', if_neg]
      rintro ⟨hle, hlt⟩
      have hplace := h.place_eq hfits (by omega)
      omega
    · rw [Vec.get_of_size_le (by rw [size_addBlock]; omega), Vec.get_of_size_le (by omega)]

end Access

/-! ### Safe layouts -/

/-- The spans that the flat operations go by are those that the keys have, as long as the terms are
wide, and end within the buffer. -/
theorem flatSpans_eq_ok {width : Int} {l : Layout} {n : Nat} {keys : List Key} {spans : List (Int × Int)}
    (h : LinearFactor.flatSpans width (some l) [n] keys = .ok spans) :
    keys.mapM l.span = .ok spans ∧ ∀ s ∈ spans, s.2 = width ∧ s.1 + s.2 ≤ n := by
  induction keys generalizing spans with
  | nil =>
    cases h
    exact ⟨rfl, fun s hs => nomatch hs⟩
  | cons key rest ih =>
    rw [LinearFactor.flatSpans, List.mapM_cons] at h
    obtain ⟨s, hs, h⟩ := bind_eq_ok.mp h
    obtain ⟨given, hgiven, h⟩ := bind_eq_ok.mp h
    obtain ⟨hlooked, hchecked⟩ := ih hgiven
    obtain ⟨s', hs', hs⟩ := bind_eq_ok.mp hs
    obtain ⟨u, hfits, hs⟩ := bind_eq_ok.mp hs
    obtain ⟨s'', hspan, hs'⟩ := bind_eq_ok.mp hs'
    split at hs'
    · rename_i hwidth
      cases hs'
      cases hs
      cases h
      refine ⟨?_, fun s hs => ?_⟩
      · rw [List.mapM_cons, hspan, hlooked]
        rfl
      · rcases List.mem_cons.mp hs with rfl | hs
        · exact ⟨hwidth, fits_of_checkFits hfits⟩
        · exact hchecked s hs
    · cases hs'

theorem exists_span {l : Layout} {keys : List Key} {spans : List (Int × Int)} {s : Int × Int}
    (h : keys.mapM l.span = .ok spans) (hs : s ∈ spans) : ∃ key ∈ keys, l.span key = .ok s := by
  have hmem : Except.ok s ∈ keys.map l.span := by
    rw [mapM_eq_ok.mp h]
    exact List.mem_map_of_mem hs
  exact List.mem_map.mp hmem

/-- The entries of a layout are the spans that its keys have. -/
theorem span_of_mem {l : Layout} {e : Key × (Int × Int)} (he : e ∈ l.spans.entries) :
    l.span e.1 = .ok e.2 := by
  rw [span, Table.find?_of_mem he]

section Safety
variable {α : Type} [Scalar α] {l : Layout}

theorem gather_of_fits {key : Key} {s : Int × Int} {buffer : Vec α} (hs : l.span key = .ok s)
    (hfits : s.1 + s.2 ≤ buffer.size) : l.gather (.ofVec buffer) key = .ok (readSpan buffer s) := by
  have hin : fits s [buffer.size] = true := decide_eq_true hfits
  rw [Layout.gather, checkedSpan, hs, Tensor.shape_ofVec]
  simp only [ok_bind, checkFits, if_pos hin]
  rfl

/-- Only a sound span is read safely: of a buffer that ends where the span does, a place before the
first is none, and no number of entries is negative. -/
theorem Safe.sound (h : l.Safe α) {e : Key × (Int × Int)} (he : e ∈ l.spans.entries) : Sound e.2 := by
  have hfits : e.2.1 + e.2.2 ≤ (Vec.zeros (e.2.1 + e.2.2).toNat : Vec α).size := by
    rw [Vec.zeros, Vec.size_ofFn]
    exact Int.self_le_toNat _
  obtain ⟨s, hs, hreads⟩ := h.gather _ _ _ (gather_of_fits (span_of_mem he) hfits)
  rw [span_of_mem he] at hs
  cases hs
  refine ⟨hreads.within.1, fun hpos => ?_⟩
  exact (hreads.within.2 e.2.1 le_rfl (by omega)).1

theorem safe_of_sound (h : ∀ e ∈ l.spans.entries, Sound e.2) : l.Safe α where
  gather := by
    intro buffer v key hv
    obtain ⟨s, hs, hv⟩ := bind_eq_ok.mp hv
    obtain ⟨hspan, rfl, hfits⟩ := checkedSpan_eq_ok hs
    refine ⟨_, hspan, ?_⟩
    rw [← pure_eq_ok.mp hv]
    exact (h _ (mem_of_span hspan).1).reads hfits
  scatterAdd := by
    intro buffer out value key hout
    obtain ⟨s, hs, hout⟩ := bind_eq_ok.mp hout
    obtain ⟨hspan, rfl, hfits⟩ := checkedSpan_eq_ok hs
    refine ⟨_, hspan, ?_⟩
    split at hout
    · rename_i n hshape
      split at hout
      · rename_i hwidth
        have hsize : value.flatten.size = n := by
          have hvolume := value.size_eq
          rw [hshape] at hvolume
          exact hvolume.trans (Nat.mul_one n)
        obtain ⟨out', hadd, hadds⟩ := (h _ (mem_of_span hspan).1).adds hfits (hsize ▸ hwidth)
        cases hadd.symm.trans hout
        refine ⟨?_, hadds⟩
        rw [hshape, ← hwidth]
        rfl
      · cases hout
    · cases hout
  flat := by
    intro width n keys spans hspans
    obtain ⟨hlooked, hchecked⟩ := flatSpans_eq_ok hspans
    refine ⟨hlooked, fun s hs => ?_⟩
    obtain ⟨hwidth, hfits⟩ := hchecked s hs
    obtain ⟨key, -, hkey⟩ := exists_span hlooked hs
    have hsound := h _ (mem_of_span hkey).1
    refine ⟨hwidth, fun buffer hb => ⟨hsound.reads (hb ▸ hfits), fun value hv => ?_⟩⟩
    exact hsound.adds (hb ▸ hfits) (hv.trans hwidth.symm)

/-- **A layout is safe exactly if every span has a length, and a start within the buffer if it has
places.** -/
theorem safe_iff : l.Safe α ↔ ∀ e ∈ l.spans.entries, Sound e.2 :=
  ⟨fun h _ he => h.sound he, safe_of_sound⟩

end Safety

/-! ### The layouts that are built -/

theorem extend_eq_ok {l l' : Layout} {key : Key} {width : Count} (h : l.extend key width = .ok l') :
    ∃ n, width.truncate = .ok n ∧ l'.spans.entries = l.spans.entries ++ [(key, (l.size, n))] := by
  unfold extend at h
  split at h
  · cases h
  · rename_i hnew
    obtain ⟨n, hn, h⟩ := bind_eq_ok.mp h
    have hkey : key ∉ l.spans.keys := by
      rw [← Table.find?_eq_none_iff]
      exact Option.not_isSome_iff_eq_none.mp hnew
    refine ⟨n, hn, ?_⟩
    rw [← pure_eq_ok.mp h]
    exact Table.write_of_not_mem _ hkey

/-- The spans of a layout of widths are as long as the widths. -/
theorem lengths_foldlM {pairs : List (Key × Count)} {l l' : Layout}
    (h : pairs.foldlM (fun l e => l.extend e.1 e.2) l = .ok l') :
    ∃ given : List Int, pairs.map (fun e => e.2.truncate) = given.map .ok ∧
      l'.spans.entries.map (fun e => e.2.2) = l.spans.entries.map (fun e => e.2.2) ++ given := by
  induction pairs generalizing l with
  | nil =>
    cases h
    exact ⟨[], rfl, (List.append_nil _).symm⟩
  | cons e rest ih =>
    rw [List.foldlM_cons] at h
    obtain ⟨l₁, h₁, h⟩ := bind_eq_ok.mp h
    obtain ⟨n, hn, hentries⟩ := extend_eq_ok h₁
    obtain ⟨given, hgiven, hlengths⟩ := ih h
    refine ⟨n :: given, ?_, ?_⟩
    · rw [List.map_cons, hn, hgiven, List.map_cons]
    · rw [hlengths, hentries, List.map_append, List.append_assoc]
      rfl

theorem lengths_ofWidths {keys : List Key} {widths : List Count} {l : Layout}
    (h : ofWidths keys widths = .ok l) :
    widths.mapM Count.truncate = .ok (l.spans.entries.map fun e => e.2.2) := by
  unfold ofWidths at h
  split at h
  · rename_i hlen
    obtain ⟨given, hgiven, hlengths⟩ := lengths_foldlM h
    have hsnd : (keys.zip widths).map Prod.snd = widths := List.map_snd_zip (le_of_eq hlen.symm)
    refine mapM_eq_ok.mpr ?_
    rw [hlengths, ← hsnd, List.map_map]
    exact hgiven
  · cases h

/-- The spans of a layout of offsets lie between neighbours, and none is shorter than zero. -/
theorem spans_betweenOffsets {offsets : List Int} {spans : Table Key (Int × Int)} {next : Nat} {a : Int}
    {l : Layout} (hnew : ∀ key ∈ spans.keys, ∃ n < next, key = .number n)
    (h : betweenOffsets spans next (a :: offsets) = .ok l) :
    l.spans.entries.map Prod.snd = spans.entries.map Prod.snd ++
        ((a :: offsets).zip offsets).map (fun p => (p.1, p.2 - p.1)) ∧
      ∀ p ∈ (a :: offsets).zip offsets, p.1 ≤ p.2 := by
  induction offsets generalizing spans next a with
  | nil =>
    cases h
    exact ⟨(List.append_nil _).symm, fun p hp => nomatch hp⟩
  | cons b rest ih =>
    unfold betweenOffsets at h
    split at h
    · cases h
    · rename_i hle
      have hkey : Key.number next ∉ spans.keys := by
        intro hmem
        obtain ⟨n, hlt, hn⟩ := hnew _ hmem
        cases hn
        omega
      have hnew' : ∀ key ∈ (spans.insert (.number next) (a, b - a)).keys, ∃ n < next + 1, key = .number n := by
        intro key hmem
        rw [Table.keys_insert, if_neg hkey, List.mem_append, List.mem_singleton] at hmem
        rcases hmem with hmem | rfl
        · obtain ⟨n, hlt, hn⟩ := hnew key hmem
          exact ⟨n, by omega, hn⟩
        · exact ⟨next, by omega, rfl⟩
      obtain ⟨hspans, hsorted⟩ := ih hnew' h
      refine ⟨?_, fun p hp => ?_⟩
      · have hentries : (spans.insert (.number next) (a, b - a)).entries =
            spans.entries ++ [(.number next, (a, b - a))] := Table.write_of_not_mem _ hkey
        rw [hspans, hentries, List.map_append, List.append_assoc]
        rfl
      · rcases List.mem_cons.mp hp with rfl | hp
        · exact not_lt.mp hle
        · exact hsorted p hp

theorem spans_ofOffsets {offsets : List Count} {given : List Int} {l : Layout}
    (hg : offsets.mapM Count.truncate = .ok given) (h : ofOffsets offsets = .ok l) :
    l.spans.entries.map Prod.snd = (given.zip given.tail).map (fun p => (p.1, p.2 - p.1)) ∧
      ∀ p ∈ given.zip given.tail, p.1 ≤ p.2 := by
  rw [ofOffsets, hg, ok_bind] at h
  cases given with
  | nil =>
    cases h
    exact ⟨rfl, fun p hp => nomatch hp⟩
  | cons a rest =>
    refine spans_betweenOffsets (fun key hkey => ?_) h
    cases hkey

section Built
variable {α : Type} [Scalar α] {l : Layout}

theorem safe_ofWidths {keys : List Key} {widths : List Count} (h : ofWidths keys widths = .ok l) :
    l.Safe α ↔ ∀ w ∈ widths, ∀ n, w.truncate = .ok n → 0 ≤ n := by
  rw [safe_iff]
  constructor
  · intro hsafe w hw n hn
    have hmem : Except.ok n ∈ (l.spans.entries.map fun e => e.2.2).map (Except.ok (ε := Fault)) := by
      rw [← mapM_eq_ok.mp (lengths_ofWidths h), ← hn]
      exact List.mem_map_of_mem hw
    obtain ⟨m, hm, hmn⟩ := List.mem_map.mp hmem
    cases hmn
    obtain ⟨e, he, rfl⟩ := List.mem_map.mp hm
    exact (hsafe _ he).1
  · intro hw e he
    obtain ⟨hstart, hlen, -⟩ := (proper_ofWidths h hw).inside e he
    exact ⟨hlen, fun _ => hstart⟩

theorem safe_ofOffsets {offsets : List Count} {given : List Int}
    (hg : offsets.mapM Count.truncate = .ok given) (h : ofOffsets offsets = .ok l) :
    l.Safe α ↔ ∀ p ∈ given.zip given.tail, p.1 < p.2 → 0 ≤ p.1 := by
  obtain ⟨hspans, hsorted⟩ := spans_ofOffsets hg h
  rw [safe_iff]
  constructor
  · intro hsafe p hp hlt
    have hmem : (p.1, p.2 - p.1) ∈ l.spans.entries.map Prod.snd := by
      rw [hspans]
      exact List.mem_map_of_mem hp
    obtain ⟨e, he, hep⟩ := List.mem_map.mp hmem
    have hsound := hsafe e he
    rw [hep] at hsound
    exact hsound.2 (Int.sub_pos_of_lt hlt)
  · intro hp e he
    have hmem := List.mem_map_of_mem (f := Prod.snd) he
    rw [hspans] at hmem
    obtain ⟨p, hmem, hpe⟩ := List.mem_map.mp hmem
    rw [← hpe]
    exact ⟨Int.sub_nonneg_of_le (hsorted p hmem), fun hpos => hp p hmem (Int.lt_of_sub_pos hpos)⟩

/-- **The accesses of a layout of widths are safe exactly if no width is negative, those of a layout of
offsets exactly if no block that has places begins at a negative offset.** -/
theorem safe_iff_built (l : Layout) :
    (∀ keys widths, ofWidths keys widths = .ok l →
      (l.Safe α ↔ ∀ w ∈ widths, ∀ n, w.truncate = .ok n → 0 ≤ n)) ∧
    ∀ offsets given, offsets.mapM Count.truncate = .ok given → ofOffsets offsets = .ok l →
      (l.Safe α ↔ ∀ p ∈ given.zip given.tail, p.1 < p.2 → 0 ≤ p.1) :=
  ⟨fun _ _ h => safe_ofWidths h, fun _ _ hg h => safe_ofOffsets hg h⟩

end Built

/-- The layout of two widths and a layout of offsets with an empty block are safe. -/
theorem safe_iff_built_ordered :
    (∃ l, ofWidths [.number 7, .name "calibration"] [.whole 6, .whole 5] = .ok l ∧ l.Safe ℚ) ∧
      ∃ l, ofOffsets [.whole 0, .whole 0, .whole 2, .whole 5] = .ok l ∧ l.Safe ℚ := by
  constructor
  · refine ⟨_, rfl, ((safe_iff_built _).1 [.number 7, .name "calibration"] [.whole 6, .whole 5] rfl).mpr ?_⟩
    intro w hw n hn
    simp only [List.mem_cons, List.not_mem_nil, or_false] at hw
    rcases hw with rfl | rfl
    · cases hn
      decide
    · cases hn
      decide
  · have hgiven : [0, 0, 2, 5].mapM (Count.truncate ∘ .whole) = .ok [0, 0, 2, 5] := rfl
    exact ⟨_, rfl, ((safe_iff_built _).2 [.whole 0, .whole 0, .whole 2, .whole 5] _ hgiven rfl).mpr (by decide)⟩

/-- The block between the offsets -3 and -1 ends before every buffer's end. It is read from the
places 1 and 2 of a buffer of four entries. -/
theorem gather_negativeOffsets :
    ∃ l, ofOffsets [.whole (-3), .whole (-1)] = .ok l ∧ l.span (.number 0) = .ok (-3, 2) ∧
      l.gather (.ofVec (⟨#[1, 2, 3, 4]⟩ : Vec ℚ)) (.number 0) = .ok ⟨#[2, 3]⟩ ∧ ¬ l.Safe ℚ := by
  refine ⟨_, rfl, rfl, rfl, fun h => ?_⟩
  have hsound : Sound (-3, 2) := h.sound (List.mem_singleton_self (Key.number 0, ((-3 : Int), (2 : Int))))
  exact absurd hsound (by decide)

end BundleAdjustment.Layout
