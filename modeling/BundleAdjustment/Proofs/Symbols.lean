import BundleAdjustment.Key.Symbol
import BundleAdjustment.Proofs.Faults
import Mathlib.Data.Nat.Basic

/-!
Symbols, read back from their keys and from their labels.

A text and a number are a symbol exactly where the text is one character and the number fits the bits of
an index (`symbol_eq_ok`). Shift and mask then give the code point and the index again, so that a key is
the symbol of one tag and one index only (`pack_inj`). A label shows a printable tag before the digits of
its index, and is as good as the key itself; any other symbol shows the digits of the whole key
(`labelBy_pack`). Of what is printable only one thing counts: the first code point is not, for its symbols
are the plain numbers below the first tag.
-/
namespace BundleAdjustment.Key

/-! ### Bits -/

/-- The low bits of a number are its mask. -/
theorem indexBits_eq_and (n : Nat) : indexBits n = n &&& (indexCount - 1) :=
  (Nat.and_two_pow_sub_one_eq_mod n indexWidth).symm

theorem toNat_lt_codePoints (c : Char) : c.toNat < codePoints := by
  have hvalid : c.toNat < 0xd800 ∨ 0xdfff < c.toNat ∧ c.toNat < 0x110000 := c.valid
  unfold codePoints
  omega

/-- No two pairs of a tag and an index are packed into one number. -/
theorem pack_inj {code code' i i' : Nat} (hi : i < indexCount) (hi' : i' < indexCount)
    (h : pack code i = pack code' i') : code = code' ∧ i = i' := by
  constructor
  · calc
      code = tagBits (pack code i) := (tagBits_pack hi).symm
      _ = code' := by rw [h, tagBits_pack hi']
  · calc
      i = indexBits (pack code i) := (indexBits_pack hi).symm
      _ = i' := by rw [h, indexBits_pack hi']

/-- Only the first code point leaves the bits of the tag empty. -/
theorem pack_lt_iff {code i : Nat} (hi : i < indexCount) : pack code i < indexCount ↔ code = 0 := by
  rw [pack_eq hi]
  constructor
  · intro h
    by_contra hcode
    have hle : indexCount ≤ code * indexCount := Nat.le_mul_of_pos_left _ (Nat.pos_of_ne_zero hcode)
    omega
  · rintro rfl
    omega

/-! ### Keys -/

/-- **What a symbol is made of.** -/
theorem symbol_eq_ok {tag : String} {index : Int} {key : Key} :
    symbol tag index = .ok key ↔ ∃ (c : Char) (i : Nat), tag = String.singleton c ∧ index = i ∧
      i < indexCount ∧ key = .number (pack c.toNat i) := by
  constructor
  · intro h
    unfold symbol at h
    split at h
    · rename_i c htag
      split at h
      · rename_i hindex
        cases h
        refine ⟨c, index.toNat, ?_, by omega, by omega, rfl⟩
        exact String.toList_inj.mp (htag.trans (String.toList_singleton c).symm)
      · cases h
    · cases h
  · rintro ⟨c, i, rfl, rfl, hi, rfl⟩
    have hindex : (0 : Int) ≤ i ∧ (i : Int) < indexCount := by omega
    rw [symbol, String.toList_singleton]
    exact if_pos hindex

theorem exists_symbol_iff {tag : String} {index : Int} :
    (∃ key, symbol tag index = .ok key) ↔ tag.length = 1 ∧ 0 ≤ index ∧ index < indexCount := by
  constructor
  · rintro ⟨key, h⟩
    obtain ⟨c, i, rfl, rfl, hi, -⟩ := symbol_eq_ok.mp h
    exact ⟨by rw [← String.length_toList, String.toList_singleton]; rfl, by omega, by omega⟩
  · rintro ⟨htag, h0, hlt⟩
    rw [← String.length_toList] at htag
    obtain ⟨c, hc⟩ := List.length_eq_one_iff.mp htag
    refine ⟨_, symbol_eq_ok.mpr ⟨c, index.toNat, ?_, by omega, by omega, rfl⟩⟩
    exact String.toList_inj.mp (hc.trans (String.toList_singleton c).symm)

theorem symbol_inj {tag tag' : String} {index index' : Int} {key : Key} (h : symbol tag index = .ok key)
    (h' : symbol tag' index' = .ok key) : tag = tag' ∧ index = index' := by
  obtain ⟨c, i, rfl, rfl, hi, rfl⟩ := symbol_eq_ok.mp h
  obtain ⟨c', i', rfl, rfl, hi', hkey⟩ := symbol_eq_ok.mp h'
  have hnumber : pack c.toNat i = pack c'.toNat i' := Int.ofNat.inj (Key.number.inj hkey)
  obtain ⟨hc, rfl⟩ := pack_inj hi hi' hnumber
  exact ⟨congrArg String.singleton (Char.toNat_inj.mp hc), rfl⟩

/-! ### Labels -/

section Labels
variable {printable : Nat → Bool} (hnul : printable 0 = false)
include hnul

/-- **The label of a symbol** is its tag and the digits of its index, or the digits of the whole key. -/
theorem labelBy_pack (c : Char) {i : Nat} (hi : i < indexCount) :
    (number (pack c.toNat i)).labelBy printable =
      .ok (if printable c.toNat then String.singleton c ++ toString i else toString (pack c.toNat i)) := by
  have hlow : pack c.toNat i < indexCount ↔ c.toNat = 0 := pack_lt_iff hi
  have hcode := toNat_lt_codePoints c
  have hword : ¬ largestWord < c.toNat := by
    unfold largestWord
    unfold codePoints at hcode
    omega
  show (if pack c.toNat i < indexCount then _ else _) = _
  rw [tagBits_pack hi, indexBits_pack hi]
  by_cases hzero : c.toNat = 0
  · -- Such a symbol is a plain number, and its tag is not printable.
    rw [if_pos (hlow.mpr hzero), hzero, hnul]
    rfl
  · rw [if_neg (mt hlow.mp hzero), if_neg hword, if_neg (not_le.mpr hcode), Char.ofNat_toNat,
      ← String.singleton_eq_ofList]
    cases printable c.toNat <;> rfl

/-- A label with a printable tag shows which tag and which index it is of. -/
theorem labelBy_inj {c c' : Char} {i i' : Nat} {l : String} (hi : i < indexCount) (hi' : i' < indexCount)
    (hc : printable c.toNat = true) (hc' : printable c'.toNat = true)
    (h : (number (pack c.toNat i)).labelBy printable = .ok l)
    (h' : (number (pack c'.toNat i')).labelBy printable = .ok l) : c = c' ∧ i = i' := by
  rw [labelBy_pack hnul c hi, if_pos hc] at h
  rw [labelBy_pack hnul c' hi', if_pos hc'] at h'
  have hlabel := congrArg String.toList (Except.ok.inj (h.trans h'.symm))
  rw [String.toList_append, String.toList_append, String.toList_singleton, String.toList_singleton] at hlabel
  obtain ⟨hchar, htail⟩ := List.cons.inj hlabel
  have hdigits : Nat.toDigits 10 i = Nat.toDigits 10 i' := by
    simpa [Nat.toString_eq_ofList_toDigits] using htail
  refine ⟨hchar, ?_⟩
  calc
    i = Nat.ofDigitChars 10 (Nat.toDigits 10 i) 0 := Nat.ofDigitChars_ten_toDigits.symm
    _ = Nat.ofDigitChars 10 (Nat.toDigits 10 i') 0 := by rw [hdigits]
    _ = i' := Nat.ofDigitChars_ten_toDigits

end Labels

/-- **Symbols are a faithful encoding.** A text and a number have a key exactly where the text is one
character and the number is an index. The bits of the key are the code point and the index, so that no two
pairs have one key. Whatever is printable besides the first code point, the label is the tag and the digits
of the index where the tag is printable, and the digits of the key elsewhere; and no two pairs with printable
tags have one label. -/
theorem symbol_faithful {printable : Nat → Bool} (hnul : printable 0 = false) :
    (∀ tag index, (∃ key, symbol tag index = .ok key) ↔
      tag.length = 1 ∧ 0 ≤ index ∧ index < indexCount) ∧
    (∀ tag index key, symbol tag index = .ok key → ∃ (c : Char) (i n : Nat),
      tag = String.singleton c ∧ index = i ∧ key = .number n ∧
      n >>> indexWidth = c.toNat ∧ n &&& (indexCount - 1) = i ∧
      key.labelBy printable =
        .ok (if printable c.toNat then String.singleton c ++ toString i else toString n)) ∧
    (∀ tag index tag' index' key, symbol tag index = .ok key → symbol tag' index' = .ok key →
      tag = tag' ∧ index = index') ∧
    ∀ (c c' : Char) index index' key key' l,
      symbol (String.singleton c) index = .ok key → symbol (String.singleton c') index' = .ok key' →
      printable c.toNat = true → printable c'.toNat = true →
      key.labelBy printable = .ok l → key'.labelBy printable = .ok l → c = c' ∧ index = index' := by
  refine ⟨fun tag index => exists_symbol_iff, fun tag index key h => ?_,
    fun tag index tag' index' key h h' => symbol_inj h h', ?_⟩
  · obtain ⟨c, i, htag, hindex, hi, rfl⟩ := symbol_eq_ok.mp h
    refine ⟨c, i, pack c.toNat i, htag, hindex, rfl, tagBits_pack hi, ?_, labelBy_pack hnul c hi⟩
    rw [← indexBits_eq_and, indexBits_pack hi]
  · intro c c' index index' key key' l h h' hc hc' hl hl'
    obtain ⟨d, i, htag, rfl, hi, rfl⟩ := symbol_eq_ok.mp h
    obtain ⟨d', i', htag', rfl, hi', rfl⟩ := symbol_eq_ok.mp h'
    cases String.singleton_inj.mp htag
    cases String.singleton_inj.mp htag'
    obtain ⟨rfl, rfl⟩ := labelBy_inj hnul hi hi' hc hc' hl hl'
    exact ⟨rfl, rfl⟩

/-- The last index of a tag, by the table of printable characters. -/
theorem symbol_faithful_lastIndex :
    Text.printable 0 = false ∧ ∃ key n, symbol (String.singleton 'x') ((indexCount - 1 : Nat) : Int) = .ok key ∧
      key = .number ((n : Nat) : Int) ∧ n >>> indexWidth = 120 ∧ n &&& (indexCount - 1) = indexCount - 1 ∧
      key.label = .ok "x72057594037927935" := by
  obtain ⟨hdefined, hread, -, -⟩ := symbol_faithful Text.printable_zero
  obtain ⟨key, hkey⟩ := (hdefined (String.singleton 'x') ((indexCount - 1 : Nat) : Int)).mpr (by decide)
  obtain ⟨c, i, n, htag, hindex, hn, hcode, hi, hlabel⟩ := hread _ _ key hkey
  cases String.singleton_inj.mp htag
  cases Int.ofNat.inj hindex
  have hprintable : Text.printable 'x'.toNat = true := by decide +kernel
  have hdigits : String.singleton 'x' ++ toString (indexCount - 1) = "x72057594037927935" := by decide +kernel
  rw [if_pos hprintable, hdigits] at hlabel
  exact ⟨Text.printable_zero, key, n, hkey, hn, hcode, hi, hlabel⟩

end BundleAdjustment.Key
