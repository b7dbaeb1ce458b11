import BundleAdjustment.Fault

/-!
Symbols: keys that carry a one-character tag and an index.

A symbol is one integer whose low 56 bits are the index and whose higher bits are the code
point of the tag. Its label shows tag and index; every other key is labelled by its own text.
Which tags are printable is a table of its own, and nothing here depends on its entries.
Main statements: tag and index can be read back (`tagBits_pack`, `indexBits_pack`).
-/
namespace BundleAdjustment.Key

def indexWidth : Nat := 56

def indexCount : Nat := 1 <<< indexWidth

/-- Tag and index in one number. -/
def pack (code index : Nat) : Nat := code <<< indexWidth ||| index

def tagBits (n : Nat) : Nat := n >>> indexWidth

def indexBits (n : Nat) : Nat := n % indexCount

/-- Tag and index do not overlap. -/
theorem pack_eq {code index : Nat} (h : index < indexCount) :
    pack code index = code * indexCount + index := by
  rw [indexCount, Nat.shiftLeft_eq, Nat.one_mul] at h
  rw [pack, ← Nat.shiftLeft_add_eq_or_of_lt h, indexCount, Nat.shiftLeft_eq, Nat.shiftLeft_eq,
    Nat.one_mul]

theorem tagBits_pack {code index : Nat} (h : index < indexCount) :
    tagBits (pack code index) = code := by
  rw [tagBits, pack_eq h, Nat.shiftRight_eq_div_pow]
  simp only [indexCount, indexWidth, Nat.shiftLeft_eq] at h ⊢
  omega

theorem indexBits_pack {code index : Nat} (h : index < indexCount) :
    indexBits (pack code index) = index := by
  rw [indexBits, pack_eq h, Nat.mul_add_mod_self_right, Nat.mod_eq_of_lt h]

/-- The key of a tag and an index. The tag is one character, the index fits its bits. Texts are
sequences of Unicode scalar values, so that a lone surrogate is no tag here. -/
def symbol (tag : String) (index : Int) : Except Fault Key :=
  match tag.toList with
  | [c] =>
    if 0 ≤ index ∧ index < indexCount then
      .ok (.number (pack c.toNat index.toNat))
    else .error (.symbolIndex index)
  | _ => .error (.tagLength tag)

/-- The largest number of 32 bits with a sign. -/
def largestWord : Nat := 0x7fffffff

def codePoints : Nat := 0x110000

/-- How a key is shown to a person: tag and index if it has a printable tag, else its text.
A number whose tag bits are no code point cannot be shown. -/
def labelBy (printable : Nat → Bool) (key : Key) : Except Fault String :=
  match key with
  | number (.ofNat n) =>
    if n < indexCount then .ok key.text
    else if largestWord < tagBits n then .error .tagOverflow
    else if codePoints ≤ tagBits n then .error .tagRange
    else if printable (tagBits n) then
      .ok (String.ofList [Char.ofNat (tagBits n)] ++ toString (indexBits n))
    else .ok key.text
  | _ => .ok key.text

/-- The label of a key, by the table of printable characters. -/
def label (key : Key) : Except Fault String := key.labelBy Text.printable

end BundleAdjustment.Key
