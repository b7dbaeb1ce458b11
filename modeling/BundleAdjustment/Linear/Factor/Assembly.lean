import BundleAdjustment.Linear.BlockMatrix
import BundleAdjustment.Linear.Factor
import BundleAdjustment.Linear.SlotTable

/-!
Folding a linear factor into an information matrix.

With its weighting folded in, a factor adds the Gram matrix of `[A b]` to the matrix: one block
for each pair of its keys, one in the last column for each key, and the corner. The slots and
widths are looked up and checked first; then the blocks are written in a fixed order
(`gramWrites`). A factor of two terms writes its six blocks directly (`pairWrites`).
-/
namespace BundleAdjustment
namespace LinearFactor
variable {α : Type} [Scalar α]

/-- Whether every term has the width of its slot, which is that of an unknown. -/
def checkSlots (M : BlockMatrix α) : List Int → List Nat → Except Fault Unit
  | s :: slots, w :: widths =>
    if 0 ≤ s ∧ s < M.lastSlot then
      if M.width s.toNat = w then checkSlots M slots widths
      else .error (.slotWidth s (M.width s.toNat) w)
    else .error (.slotRange s)
  | _, _ => .ok ()

/-- Whether the terms have slots of their own, of their widths. -/
def checkPlacement (M : BlockMatrix α) (slots : List Int) (widths : List Nat) :
    Except Fault Unit :=
  if slots.Nodup then checkSlots M slots widths else .error (.slotsShared slots)

/-- The product of a transposed matrix and a vector, as a column. -/
def gradientColumn (A : Mat α) (b : Vec α) : Mat α := Mat.ofColumn (A.transposeMulVec b)

def corner (b : Vec α) : Mat α := Mat.ofFn 1 1 fun _ _ => b.dot b

/-- The writes of placed terms in ascending order of their slots: each with itself and those
after it, and then with the right-hand side. -/
def placedWrites (b : Vec α) (last : Int) : List (Int × Mat α) → List (BlockMatrix.Write α)
  | [] => []
  | (s, A) :: rest =>
    ((s, A) :: rest).map (fun t => ⟨s, t.1, A.gram t.2⟩) ++
      ⟨s, last, gradientColumn A b⟩ :: placedWrites b last rest

/-- The writes of placed terms and of the right-hand side's corner. -/
def gramWrites (b : Vec α) (last : Int) (placed : List (Int × Mat α)) :
    List (BlockMatrix.Write α) :=
  placedWrites b last (placed.mergeSort fun s t => s.1 ≤ t.1) ++ [⟨last, last, corner b⟩]

/-- The six writes of two placed terms, of which the one with the lower slot goes first. -/
def pairWrites (b : Vec α) (last : Int) (first second : Int × Mat α) :
    List (BlockMatrix.Write α) :=
  let (lower, upper) := if second.1 < first.1 then (second, first) else (first, second)
  [⟨lower.1, lower.1, lower.2.gram lower.2⟩,
    ⟨lower.1, upper.1, lower.2.gram upper.2⟩,
    ⟨lower.1, last, gradientColumn lower.2 b⟩,
    ⟨upper.1, upper.1, upper.2.gram upper.2⟩,
    ⟨upper.1, last, gradientColumn upper.2 b⟩,
    ⟨last, last, corner b⟩]

/-- The writes of a factor as it stands, without regard to its model. -/
def plainWrites (f : LinearFactor α) (slots : SlotTable) (M : BlockMatrix α) :
    Except Fault (List (BlockMatrix.Write α)) := do
  let table ← slots.toTable
  let places ← f.keys.mapM (SlotTable.find table)
  checkPlacement M places f.widths
  let placed := places.zip f.blocks
  match f.kind, placed with
  | .pair, [first, second] => return pairWrites f.rhs M.lastSlot first second
  | _, _ => return gramWrites f.rhs M.lastSlot placed

/-- The writes of a factor. Weighted factors are whitened first, hard constraints are refused,
and a factor without terms writes nothing. -/
def writes (f : LinearFactor α) (slots : SlotTable) (M : BlockMatrix α) :
    Except Fault (List (BlockMatrix.Write α)) := do
  if f.isEmpty then return []
  if Noise.needsWhitening f.model then
    if f.model.elim false Noise.isConstrained then throw (.constrainedUpdate f.kind.name)
    (← f.whiten).plainWrites slots M
  else f.plainWrites slots M

/-- Folds a factor into a matrix. If a write is refused, those before it stay. -/
def addTo (f : LinearFactor α) (slots : SlotTable) (M : BlockMatrix α) :
    BlockMatrix α × Except Fault Unit :=
  match f.writes slots M with
  | .ok ws => M.writeAll ws
  | .error e => (M, .error e)

end LinearFactor

namespace BlockMatrix
variable {α : Type} [Scalar α]

/-- Folds factors into a matrix one after the other; the first fault ends the work. -/
def foldFactors (slots : SlotTable) (M : BlockMatrix α) :
    List (LinearFactor α) → Except Fault (BlockMatrix α)
  | [] => .ok M
  | f :: rest =>
    match f.addTo slots M with
    | (M', .ok ()) => M'.foldFactors slots rest
    | (_, .error e) => .error e

/-- The information matrix of factors, of which some may be missing: `widths` gives the width of
each slot. -/
def accumulate (factors : List (Option (LinearFactor α))) (slots : SlotTable)
    (widths : List Count) : Except Fault (BlockMatrix α) := do
  let table ← slots.toTable
  if widths.length = table.size then
    (← ofCounts widths true).foldFactors (.mapping table) (factors.filterMap id)
  else throw .slotWidths

end BlockMatrix
end BundleAdjustment
