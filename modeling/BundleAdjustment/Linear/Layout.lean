import BundleAdjustment.Count
import BundleAdjustment.Table
import BundleAdjustment.Tensor

/-!
Layouts: where the block of each unknown lies in a flat buffer.

A layout gives each key a span, an offset and a length. It is built from widths in order, or
from an offset table whose neighbours delimit the spans of the keys 0, 1, …. Reading and adding
check that the span ends within the buffer. Offsets may be negative if the widths were; such a
place counts from the buffer's end, as places of a range do everywhere here (`place`).
-/
namespace BundleAdjustment

/-- Where each key's block lies, and how long the whole buffer is. -/
structure Layout where
  spans : Table Key (Int × Int)
  size : Int

/-- The place that a bound of a range has in a buffer of length `n`: a negative bound counts
from the end, and every bound is moved to the nearest place that exists. -/
def place (n : Nat) (bound : Int) : Nat :=
  (min (max (if bound < 0 then bound + n else bound) 0) n).toNat

theorem place_natCast {n i : Nat} (h : i ≤ n) : place n i = i := by
  unfold place
  rw [if_neg (by omega)]
  omega

namespace Layout

def empty : Layout := ⟨Table.empty, 0⟩

/-- Gives a key the next `width` places. -/
def extend (l : Layout) (key : Key) (width : Count) : Except Fault Layout := do
  if l.spans.contains key then throw (.layoutDuplicate key)
  let n ← width.truncate
  return ⟨l.spans.insert key (l.size, n), l.size + n⟩

/-- Consecutive blocks of the given widths. -/
def ofWidths (keys : List Key) (widths : List Count) : Except Fault Layout :=
  if keys.length = widths.length then
    (keys.zip widths).foldlM (fun l e => l.extend e.1 e.2) empty
  else .error .layoutLengths

/-- Gives the keys from `next` on the places between neighbouring offsets. -/
def betweenOffsets (spans : Table Key (Int × Int)) (next : Nat) : List Int → Except Fault Layout
  | [] => .ok ⟨spans, 0⟩
  | [last] => .ok ⟨spans, last⟩
  | a :: b :: rest =>
    if b < a then .error .layoutDescends
    else betweenOffsets (spans.insert (.number next) (a, b - a)) (next + 1) (b :: rest)

/-- The blocks between neighbouring offsets; the keys are 0, 1, …. -/
def ofOffsets (offsets : List Count) : Except Fault Layout := do
  betweenOffsets Table.empty 0 (← offsets.mapM Count.truncate)

def keys (l : Layout) : List Key := l.spans.keys

def contains (l : Layout) (key : Key) : Bool := l.spans.contains key

/-- The offset and the length of a key's block. -/
def span (l : Layout) (key : Key) : Except Fault (Int × Int) :=
  match l.spans.find? key with
  | some s => .ok s
  | none => .error (.layoutMissing key)

/-- Whether a span ends within a buffer of that shape. -/
def fits (span : Int × Int) : List Nat → Bool
  | [n] => decide (span.1 + span.2 ≤ n)
  | _ => false

/-- A span that ends within a buffer of that shape. -/
def checkFits (shape : List Nat) (key : Key) (span : Int × Int) : Except Fault Unit :=
  if fits span shape then .ok ()
  else .error (.spanBounds span.1 (span.1 + span.2) key shape)

/-- A key's span, which ends within a buffer of that shape. -/
def checkedSpan (l : Layout) (shape : List Nat) (key : Key) : Except Fault (Int × Int) := do
  let s ← l.span key
  checkFits shape key s
  return s

/-- The places of a span. -/
def readSpan {α : Type} [Zero α] (buffer : Vec α) (span : Int × Int) : Vec α :=
  buffer.slice (place buffer.size span.1) (place buffer.size (span.1 + span.2))

/-- Adds to the places of a span. A single number is added to every place; a range without
places takes anything. -/
def addSpan {α : Type} [Scalar α] (buffer : Vec α) (span : Int × Int) (value : Vec α) :
    Except Fault (Vec α) :=
  let start := place buffer.size span.1
  let stop := place buffer.size (span.1 + span.2)
  if stop ≤ start then .ok buffer
  else if value.size = stop - start ∨ value.size = 1 then
    .ok (Vec.ofFn buffer.size fun i =>
      if start ≤ i ∧ i < stop then
        buffer.get i + value.get (if value.size = 1 then 0 else i - start)
      else buffer.get i)
  else .error .shapeMismatch

section Buffers
variable {α : Type} [Scalar α]

/-- The block of a key. -/
def gather (l : Layout) (buffer : Tensor α) (key : Key) : Except Fault (Vec α) := do
  let s ← l.checkedSpan buffer.shape key
  return readSpan buffer.flatten s

/-- Adds a vector of the block's length onto the block of a key. -/
def scatterAdd (l : Layout) (buffer : Tensor α) (key : Key) (value : Tensor α) :
    Except Fault (Vec α) := do
  let s ← l.checkedSpan buffer.shape key
  match value.shape with
  | [n] =>
    if (n : Int) = s.2 then addSpan buffer.flatten s value.flatten
    else throw (.spanValue value.shape s.2)
  | _ => throw (.spanValue value.shape s.2)

def zeros (l : Layout) : Except Fault (Vec α) := Tensor.zeros l.size

/-- The buffer with the given blocks; blocks that are not given are zero. -/
def pack (l : Layout) (blocks : Table Key (Tensor α)) : Except Fault (Vec α) := do
  blocks.entries.foldlM (fun buffer e => l.scatterAdd (.ofVec buffer) e.1 e.2) (← l.zeros)

def unpack (l : Layout) (buffer : Tensor α) : Except Fault (Table Key (Vec α)) :=
  l.keys.foldlM (fun t key => return t.insert key (← l.gather buffer key)) Table.empty

end Buffers

/-! ### Spans within a buffer -/

/-- Adding to a span of natural offset that ends within the buffer changes its own places and no other. -/
theorem addSpan_natCast {α : Type} [Scalar α] {buffer value : Vec α} {offset : Nat}
    (h : offset + value.size ≤ buffer.size) :
    addSpan buffer (offset, value.size) value =
      .ok (Vec.ofFn buffer.size fun i =>
        if offset ≤ i ∧ i < offset + value.size then buffer.get i + value.get (i - offset)
        else buffer.get i) := by
  have h1 : place buffer.size (offset : Int) = offset := place_natCast (by omega)
  have h2 : place buffer.size ((offset : Int) + value.size) = offset + value.size := by
    rw [← Int.natCast_add]
    exact place_natCast h
  simp only [addSpan, h1, h2]
  by_cases h0 : offset + value.size ≤ offset
  · rw [if_pos h0]
    congr 1
    apply Vec.ext_get (by simp)
    intro i hi
    rw [Vec.get_ofFn hi, if_neg (by omega)]
  · rw [if_neg h0, if_pos (by omega)]
    congr 1
    apply Vec.ofFn_congr
    intro i _
    by_cases hi : offset ≤ i ∧ i < offset + value.size
    · rw [if_pos hi, if_pos hi]
      congr 2
      split <;> omega
    · rw [if_neg hi, if_neg hi]

/-- Whether two layouts have one size and give the same keys the same spans, in any order. -/
def equals (a b : Layout) : Bool :=
  decide (a.size = b.size) && decide (a.spans.size = b.spans.size) &&
    a.spans.entries.all fun e => decide (b.spans.find? e.1 = some e.2)

end Layout
end BundleAdjustment
