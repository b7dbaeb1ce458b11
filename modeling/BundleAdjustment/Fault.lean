import BundleAdjustment.Key

/-!
Faults: every reason for which an operation of this library gives no answer.

A fault is a cause with the data that explain it. Its wording is in `Fault.message` alone, so
callers and proofs speak of causes and never of texts.
-/
namespace BundleAdjustment

/-- Why an operation gives no answer. -/
inductive Fault where
  /-- The array operation has no meaning on arrays of these shapes. -/
  | shapeMismatch
  /-- A symbol's tag is not a single character. -/
  | tagLength (tag : String)
  /-- A symbol's index does not fit its bits. -/
  | symbolIndex (index : Int)
  /-- A key's tag bits lie beyond the last character. -/
  | tagRange
  /-- A key's tag bits lie beyond the range of a 32-bit signed number. -/
  | tagOverflow
  /-- A number that is not a number has no integer part. -/
  | undefinedInteger
  /-- An infinite number has no integer part. -/
  | infiniteInteger
  /-- A noise model has one scale per row; the value has other rows. -/
  | whitenRows (rows : Nat) (shape : List Nat)
  /-- An array without axes has no first one. -/
  | noFirstAxis
  /-- Keys and widths do not pair up. -/
  | layoutLengths
  /-- A layout cannot give a key two spans. -/
  | layoutDuplicate (key : Key)
  /-- An offset table has to ascend. -/
  | layoutDescends
  /-- The layout has no span for the key. -/
  | layoutMissing (key : Key)
  /-- A span does not fit the buffer. -/
  | spanBounds (start stop : Int) (key : Key) (shape : List Nat)
  /-- A value does not fill its span. -/
  | spanValue (shape : List Nat) (length : Int)
  /-- A slot table cannot give a key two slots. -/
  | slotDuplicate (key : Key)
  /-- The slot table has no slot for the key. -/
  | slotMissing (key : Key)
  /-- A matrix block cannot be empty. -/
  | blockWidths (widths : List Int)
  /-- Only the upper triangle is written. -/
  | lowerTriangle (row col : Int)
  /-- There is no block row of that number. -/
  | blockIndex (index : Int) (count : Nat)
  /-- A block has a fixed shape. -/
  | blockShape (row col : Int) (expected got : List Nat)
  /-- A matrix without blocks has no augmented one to leave out. -/
  | noBlocks
  /-- Widths and slots do not pair up. -/
  | slotWidths
  /-- A term's matrix does not have the rows of the right-hand side. -/
  | termShape (key : Key) (shape : List Nat) (rows : Nat)
  /-- A factor cannot have two terms of one key. -/
  | termDuplicate (key : Key)
  /-- The noise model has other rows than the factor. -/
  | modelRows (got rows : Nat)
  /-- The factor has no term of that key. -/
  | termMissing (key : Key)
  /-- The vector container lacks a key of the factor. -/
  | vectorMissing (key : Key)
  /-- A hard constraint cannot be folded into an information matrix. -/
  | constrainedUpdate (factor : String)
  /-- Two keys would be written to one slot. -/
  | slotsShared (slots : List Int)
  /-- The slot is not that of a variable. -/
  | slotRange (slot : Int)
  /-- A term's width is not that of its slot. -/
  | slotWidth (slot : Int) (expected got : Nat)
  /-- A two-term factor measures two rows. -/
  | pairRows (expected got : Nat)
  /-- Terms of one width were promised and several widths came. -/
  | mixedWidths (widths : List Nat)
  /-- Terms of a stated width were promised and others came. -/
  | otherWidths (expected : Int) (got : List Nat)
  /-- The layout's span of a key is not as long as the factor's width. -/
  | spanWidth (key : Key) (length width : Int)
  /-- Only non-negative integer keys have a place in a strided buffer. -/
  | strideKey (key : Key)
  /-- The gradient has no form over flat buffers. -/
  | flatGradient
  /-- A variable type of that name does not exist. -/
  | unknownType (name : String)
  /-- A dictionary lacks the key. -/
  | keyMissing (key : Key)
  /-- A projection is given a pose, a point and a calibration of other shapes. -/
  | projectionShapes (pose point calibration : List Nat)
  /-- A measurement is two pixel coordinates. -/
  | measurementShape (expected : Nat) (shape : List Nat)
  /-- An observation ties a fixed number of unknowns. -/
  | keyCount (factor : String) (expected got : Nat)
  /-- The noise model of a measurement has two rows. -/
  | noiseRows (got expected : Nat)
  /-- There is no estimate for a key. -/
  | estimateMissing (key : Key)
  /-- An observation is evaluated at one estimate per key. -/
  | valueCount (factor : String) (expected got : Nat)
  /-- An observation of no particular kind predicts nothing. -/
  | noProjection
  /-- A key keeps the type that it was registered with. -/
  | typeConflict (key : Key) (registered : String)
  /-- There is no observation at that position. -/
  | noObservation
  /-- A step length would be a quotient by zero. -/
  | divisionByZero
  deriving DecidableEq

namespace Fault

def listed (l : List Int) : String := Text.bracketed (l.map toString)

def message : Fault → String
  | shapeMismatch => "array shapes do not fit together"
  | tagLength tag => "symbol tag must be a single character, got " ++ Text.quoted tag
  | symbolIndex index => "symbol index out of range: " ++ toString index
  | tagRange => "chr() arg not in range(0x110000)"
  | tagOverflow => "Python int too large to convert to C int"
  | undefinedInteger => "cannot convert float NaN to integer"
  | infiniteInteger => "cannot convert float infinity to integer"
  | whitenRows rows shape =>
    "whiten: expected leading dimension " ++ toString rows ++ ", got " ++ Text.shape shape
  | noFirstAxis => "tuple index out of range"
  | layoutLengths => "keys and dims must have the same length"
  | layoutDuplicate key => "duplicate key " ++ key.quoted ++ " in layout"
  | layoutDescends => "offset table must be non-decreasing"
  | layoutMissing key => "key " ++ key.quoted ++ " not in vector layout"
  | spanBounds start stop key shape =>
    "slice [" ++ toString start ++ ", " ++ toString stop ++ ") for key " ++ key.quoted ++
      " out of bounds for buffer of shape " ++ Text.shape shape
  | spanValue shape length =>
    "value of shape " ++ Text.shape shape ++ " does not fit slice of length " ++ toString length
  | slotDuplicate key => "slot table contains duplicate key " ++ key.quoted
  | slotMissing key => "key " ++ key.quoted ++ " not in slot table"
  | blockWidths widths => "block dimensions must be positive, got " ++ listed widths
  | lowerTriangle row col =>
    "write to lower-triangular block (" ++ toString row ++ ", " ++ toString col ++
      "); normalize slots first"
  | blockIndex index count =>
    "block index " ++ toString index ++ " out of range [0, " ++ toString count ++ ")"
  | blockShape row col expected got =>
    "block (" ++ toString row ++ ", " ++ toString col ++ ") expects shape " ++
      Text.shape expected ++ ", got " ++ Text.shape got
  | noBlocks => "list index out of range"
  | slotWidths => "dims and slot_table must have the same length"
  | termShape key shape rows =>
    "block for key " ++ key.quoted ++ " has shape " ++ Text.shape shape ++ ", expected (" ++
      toString rows ++ ", n)"
  | termDuplicate key => "duplicate key " ++ key.quoted ++ " in linear factor"
  | modelRows got rows =>
    "noise model dimension " ++ toString got ++ " does not match " ++ toString rows ++ " rows"
  | termMissing key => "key " ++ key.quoted ++ " not in factor"
  | vectorMissing key => "key " ++ key.quoted ++ " missing from vector values"
  | constrainedUpdate factor =>
    factor ++ ".update_hessian: cannot update information with a constrained noise model"
  | slotsShared slots => "distinct keys share a slot: " ++ listed slots
  | slotRange slot => "slot " ++ toString slot ++ " is not a variable block of the matrix"
  | slotWidth slot expected got =>
    "slot " ++ toString slot ++ " has width " ++ toString expected ++ ", block has " ++
      toString got
  | pairRows expected got =>
    "BinaryLinearFactor expects " ++ toString expected ++ " rows, got " ++ toString got
  | mixedWidths widths => "blocks have mixed widths " ++ listed (widths.map Int.ofNat)
  | otherWidths expected got =>
    "all blocks must have width " ++ toString expected ++ ", got " ++
      listed (got.map Int.ofNat)
  | spanWidth key length width =>
    "layout gives key " ++ key.quoted ++ " length " ++ toString length ++
      ", factor width is " ++ toString width
  | strideKey key =>
    "uniform-stride addressing needs non-negative int keys, got " ++ key.quoted
  | flatGradient =>
    "FixedBlockLinearFactor.gradient_at_zero_raw is not implemented; " ++
      "use gradient_at_zero() and pack it with a VectorLayout"
  | unknownType name => "Unknown variable type '" ++ name ++ "'"
  | keyMissing key => key.text
  | projectionShapes pose point calibration =>
    "project expects pose (6,), point (3,), calib (5,); got " ++ Text.shape pose ++ ", " ++
      Text.shape point ++ ", " ++ Text.shape calibration
  | measurementShape expected shape =>
    "measurement must have " ++ toString expected ++ " entries, got " ++ Text.shape shape
  | keyCount factor expected got =>
    factor ++ " expects " ++ toString expected ++ " keys, got " ++ toString got
  | noiseRows got expected =>
    "noise model dimension " ++ toString got ++ " != " ++ toString expected
  | estimateMissing key => "no estimate for key " ++ key.quoted
  | valueCount factor expected got =>
    factor ++ ".evaluate_error expects " ++ toString expected ++ " values, got " ++
      toString got
  | noProjection => ""
  | typeConflict key registered =>
    "key " ++ key.quoted ++ " already registered as '" ++ registered ++ "'"
  | noObservation => "list index out of range"
  | divisionByZero => "float division by zero"

end Fault
end BundleAdjustment
