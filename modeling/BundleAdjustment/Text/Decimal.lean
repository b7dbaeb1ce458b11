/-!
Rounded decimal text of binary64 numbers.

A finite binary64 number is an exact fraction, so its nearest decimal of a given fineness is
found in integer arithmetic: scale, divide, and let an exact half go to the even neighbour.
Main statements: `roundDiv` is within half a unit of the quotient
(`two_mul_roundDiv_le`, `le_two_mul_roundDiv`).
-/
namespace BundleAdjustment.Text

/-- The integer nearest to a quotient; a half goes to the even neighbour. -/
def roundDiv (num den : Nat) : Nat :=
  let q := num / den
  let r := num % den
  if 2 * r < den then q
  else if den < 2 * r then q + 1
  else if q % 2 = 0 then q else q + 1

/-- Rounding up goes at most half a unit. -/
theorem two_mul_roundDiv_le (num den : Nat) : 2 * (den * roundDiv num den) ≤ 2 * num + den := by
  have h := Nat.div_add_mod num den
  unfold roundDiv
  simp only
  split
  · omega
  · split
    · rw [Nat.mul_add]; omega
    · split
      · omega
      · rw [Nat.mul_add]; omega

/-- Rounding down goes at most half a unit. -/
theorem le_two_mul_roundDiv (num : Nat) {den : Nat} (hd : 0 < den) :
    2 * num ≤ 2 * (den * roundDiv num den) + den := by
  have h := Nat.div_add_mod num den
  have hm := Nat.mod_lt num hd
  unfold roundDiv
  simp only
  split
  · omega
  · split
    · rw [Nat.mul_add]; omega
    · split
      · omega
      · rw [Nat.mul_add]; omega

/-- The exponent of the leading decimal digit of a positive fraction. -/
def leadingExponent (num den : Nat) : Int :=
  if den ≤ num then ((Nat.toDigits 10 (num / den)).length : Int) - 1
  else -((Nat.toDigits 10 ((den + num - 1) / num - 1)).length : Int)

def tens (n : Nat) : Nat := Nat.pow 10 n

/-- A fraction in units of `10 ^ unit`, rounded. -/
def inUnits (num den : Nat) (unit : Int) : Nat :=
  roundDiv (num * tens (-unit).toNat) (den * tens unit.toNat)

def signText : Float.Model.UnpackedFloat.Sign → String
  | .positive => ""
  | .negative => "-"

/-- Digits with leading zeros up to a width. -/
def padded (width n : Nat) : String :=
  let digits := Nat.toDigits 10 n
  String.ofList (List.replicate (width - digits.length) '0' ++ digits)

/-- One digit before the point, `places` after it, and an exponent of at least two digits. -/
def scientificDigits (places n : Nat) (exponent : Int) : String :=
  toString (n / tens places) ++ "." ++ padded places (n % tens places) ++ "e" ++
    (if exponent < 0 then "-" else "+") ++ padded 2 exponent.natAbs

/-- A number in scientific notation with a fixed number of places. -/
def scientific (places : Nat) (x : Float) : String :=
  match x.toModel.unpack with
  | .notANumber => "nan"
  | .infinity s => signText s ++ "inf"
  | .zero s => signText s ++ scientificDigits places 0 0
  | .finite s m e _ =>
    let num := m <<< e.toNat
    let den := 1 <<< (-e).toNat
    let exponent := leadingExponent num den
    let n := inUnits num den (exponent - places)
    signText s ++
      if n = tens (places + 1) then scientificDigits places (tens places) (exponent + 1)
      else scientificDigits places n exponent

end BundleAdjustment.Text
