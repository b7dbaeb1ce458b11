import BundleAdjustment.Fault

/-!
Counts: widths, offsets and slots as callers give them.

A count is an integer or a binary64 number, which stands for its integer part toward zero. Only
numbers that are infinite or undefined stand for no integer.
-/
namespace BundleAdjustment

/-- A number that stands for an integer. -/
inductive Count where
  | whole (n : Int)
  | real (x : Float)

namespace Count

/-- A magnitude `m · 2 ^ e` without its fraction. -/
def floorPower (m : Nat) (e : Int) : Nat := m <<< e.toNat >>> (-e).toNat

def truncate : Count → Except Fault Int
  | whole n => .ok n
  | real x =>
    match x.toModel.unpack with
    | .notANumber => .error .undefinedInteger
    | .infinity _ => .error .infiniteInteger
    | .zero _ => .ok 0
    | .finite .positive m e _ => .ok (floorPower m e)
    | .finite .negative m e _ => .ok (-(floorPower m e : Int))

@[simp] theorem truncate_whole (n : Int) : (whole n).truncate = .ok n := rfl

end Count
end BundleAdjustment
