import BundleAdjustment.Count
import BundleAdjustment.Table
import BundleAdjustment.Tensor

/-!
Symmetric matrices in blocks.

The matrix has one block row and column per unknown and, by convention, a last one of width one
for the right-hand side. Only blocks on and above the diagonal are stored, and only those that
were written; a block below the diagonal is the transpose of the one across it, and a block that
was never written is zero. Main statement: `upper_write` says what every block is
after a write. That stored blocks are `WellPlaced` is part of the type.
-/
namespace BundleAdjustment

/-- A stored block lies on or above the diagonal and has the shape of its place. -/
def WellPlaced {α : Type} (widths : List Nat) (e : (Nat × Nat) × Mat α) : Prop :=
  e.1.1 ≤ e.1.2 ∧ e.1.2 < widths.length ∧
    e.2.rows = widths.getD e.1.1 0 ∧ e.2.cols = widths.getD e.1.2 0

instance {α : Type} (widths : List Nat) (e : (Nat × Nat) × Mat α) :
    Decidable (WellPlaced widths e) := by
  unfold WellPlaced
  infer_instance

/-- A symmetric matrix in blocks, of which the written ones of the upper triangle are stored. -/
structure BlockMatrix (α : Type) where
  widths : List Nat
  blocks : Table (Nat × Nat) (Mat α)
  widths_pos : ∀ w ∈ widths, 0 < w
  wellPlaced : ∀ e ∈ blocks.entries, WellPlaced widths e

namespace BlockMatrix
variable {α : Type}

def ofWidths (widths : List Nat) (h : ∀ w ∈ widths, 0 < w) : BlockMatrix α :=
  ⟨widths, Table.empty, h, by simp [Table.empty]⟩

/-- The matrix of zeros with the given widths and, on demand, one more block of width one. -/
def ofCounts (counts : List Count) (augment : Bool) : Except Fault (BlockMatrix α) := do
  let given ← counts.mapM Count.truncate
  let widths := if augment then given ++ [1] else given
  if h : ∀ w ∈ widths, 0 < w then
    return ofWidths (widths.map Int.toNat) (by
      intro w hw
      obtain ⟨n, hn, rfl⟩ := List.mem_map.1 hw
      have := h n hn
      omega)
  else throw (.blockWidths widths)

def count (M : BlockMatrix α) : Nat := M.widths.length

def width (M : BlockMatrix α) (i : Nat) : Nat := M.widths.getD i 0

/-- The block row of the right-hand side, the last one. -/
def lastSlot (M : BlockMatrix α) : Int := (M.count : Int) - 1

/-- A block row that exists. -/
def index (M : BlockMatrix α) (i : Int) : Except Fault Nat :=
  if 0 ≤ i ∧ i < M.count then .ok i.toNat else .error (.blockIndex i M.count)

/-- The places of the stored blocks in ascending order. -/
def stored (M : BlockMatrix α) : List (Nat × Nat) :=
  M.blocks.keys.mergeSort fun a b => a.1 < b.1 || (a.1 == b.1 && a.2 ≤ b.2)

/-- How many rows block rows of these widths have together. -/
def total (widths : List Nat) : Nat := widths.foldr (· + ·) 0

/-- Where a block row begins. -/
def offset (M : BlockMatrix α) (i : Nat) : Nat := total (M.widths.take i)

def order (M : BlockMatrix α) : Nat := total M.widths

/-- The block row of a row, and the row's place within it. -/
def locate : (widths : List Nat) → (row : Nat) → Nat × Nat
  | [], row => (0, row)
  | w :: rest, row =>
    if row < w then (0, row)
    else
      let (i, r) := locate rest (row - w)
      (i + 1, r)

section Blocks
variable [Zero α]

/-- A block of the upper triangle, zero if it was never written. -/
def upper (M : BlockMatrix α) (i j : Nat) : Mat α :=
  match M.blocks.find? (i, j) with
  | some A => A
  | none => Mat.zeros (M.width i) (M.width j)

/-- A block by its place; one below the diagonal is the transpose of the one across it. -/
def get (M : BlockMatrix α) (i j : Nat) : Mat α :=
  if j < i then (M.upper j i).transpose else M.upper i j

/-- A block by any two numbers. -/
def block (M : BlockMatrix α) (i j : Int) : Except Fault (Mat α) :=
  if j < i then return (M.upper (← M.index j) (← M.index i)).transpose
  else return M.upper (← M.index i) (← M.index j)

def full (M : BlockMatrix α) : Mat α :=
  Mat.ofFn M.order M.order fun r c =>
    let (i, r') := locate M.widths r
    let (j, c') := locate M.widths c
    (M.get i j).get r' c'

/-- The matrix without its last block row and column. -/
def information (M : BlockMatrix α) : Except Fault (Mat α) :=
  if M.widths = [] then .error .noBlocks
  else
    let n := M.offset (M.count - 1)
    .ok (Mat.ofFn n n M.full.get)

/-- The first column of the last block column, down to the last block. -/
def linearTerm (M : BlockMatrix α) : Vec α :=
  Vec.concat ((List.range (M.count - 1)).map fun i => (M.get i (M.count - 1)).column 0)

/-- The first entry of the last diagonal block. -/
def constantTerm (M : BlockMatrix α) : Except Fault α :=
  return (← M.block M.lastSlot M.lastSlot).get 0 0

end Blocks

section Writes
variable [Scalar α]

/-- The block that a write leaves: a first write is stored as it is. -/
def sumWith (stored : Option (Mat α)) (value : Mat α) : Mat α :=
  match stored with
  | some A => A + value
  | none => value

/-- Adds a matrix of the right shape onto a block of the upper triangle. -/
def write (M : BlockMatrix α) (i j : Nat) (value : Mat α) (h : WellPlaced M.widths ((i, j), value)) :
    BlockMatrix α :=
  ⟨M.widths, M.blocks.insert (i, j) (sumWith (M.blocks.find? (i, j)) value), M.widths_pos, by
    intro e he
    rcases Table.mem_insert he with rfl | he
    · cases hf : M.blocks.find? (i, j) with
      | none => exact h
      | some A =>
        have := M.wellPlaced _ (Table.mem_of_find? hf)
        exact this
    · exact M.wellPlaced e he⟩

/-- Adds an array onto a block. The place has to be in the upper triangle and within the matrix,
and the array has to have the block's shape. -/
def add (M : BlockMatrix α) (i j : Int) (value : Tensor α) : Except Fault (BlockMatrix α) :=
  if j < i then .error (.lowerTriangle i j)
  else if 0 ≤ i ∧ i < M.count then
    if 0 ≤ j ∧ j < M.count then
      match value.mat? with
      | some A =>
        if h : WellPlaced M.widths ((i.toNat, j.toNat), A) then .ok (M.write i.toNat j.toNat A h)
        else .error (.blockShape i j [M.width i.toNat, M.width j.toNat] value.shape)
      | none => .error (.blockShape i j [M.width i.toNat, M.width j.toNat] value.shape)
    else .error (.blockIndex j M.count)
  else .error (.blockIndex i M.count)

/-- A matrix to be added onto a block. -/
structure Write (α : Type) where
  row : Int
  col : Int
  value : Mat α

/-- Performs writes one after the other. The first one that is refused ends the work, and what
was written before it stays. -/
def writeAll (M : BlockMatrix α) : List (Write α) → BlockMatrix α × Except Fault Unit
  | [] => (M, .ok ())
  | w :: rest =>
    match M.add w.row w.col (.ofMat w.value) with
    | .ok M' => M'.writeAll rest
    | .error e => (M, .error e)

/-! ### What blocks are -/

@[simp] theorem total_nil : total [] = 0 := rfl

@[simp] theorem total_cons (w : Nat) (rest : List Nat) : total (w :: rest) = w + total rest := rfl

/-- A row of a block is found in its block, at its place. -/
theorem locate_add {widths : List Nat} {i r : Nat} (h : r < widths.getD i 0) :
    locate widths (total (widths.take i) + r) = (i, r) := by
  induction widths generalizing i with
  | nil => simp at h
  | cons w rest ih =>
    cases i with
    | zero =>
      have hr : r < w := by simpa using h
      simp [locate, hr]
    | succ i =>
      have hr : r < rest.getD i 0 := by simpa using h
      have he : w + total (rest.take i) + r - w = total (rest.take i) + r := by omega
      have hn : ¬ w + total (rest.take i) + r < w := by omega
      simp [locate, hn, he, ih hr]

@[simp] theorem widths_write (M : BlockMatrix α) (i j : Nat) (value : Mat α)
    (h : WellPlaced M.widths ((i, j), value)) : (M.write i j value h).widths = M.widths := rfl

/-- A write changes its own block and no other. -/
theorem upper_write (M : BlockMatrix α) (i j i' j' : Nat) (value : Mat α)
    (h : WellPlaced M.widths ((i, j), value)) :
    (M.write i j value h).upper i' j' =
      if (i, j) = (i', j') then sumWith (M.blocks.find? (i, j)) value else M.upper i' j' := by
  unfold upper write
  simp only [Table.find?_insert]
  by_cases hp : (i, j) = (i', j')
  · simp [hp]
  · simp only [hp, if_false]
    rfl

end Writes
end BlockMatrix
end BundleAdjustment
