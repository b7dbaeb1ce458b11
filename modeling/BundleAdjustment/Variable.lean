import BundleAdjustment.Geometry.Arrays
import BundleAdjustment.Linear.Layout
import BundleAdjustment.Linear.SlotTable

/-!
Kinds of unknowns: how wide a step on each is, and how a step is applied.

Unknowns are registered under the name of their kind. Poses take a step from the left, a camera
takes one on its pose part and adds the rest, and everything else adds. From the widths of an
ordering of keys follow its slot table and its layout.
-/
namespace BundleAdjustment

/-- The kinds of unknowns of a reconstruction. -/
inductive VariableKind where
  | pose
  | landmark
  | calibration
  | camera
  deriving DecidableEq

/-- The space that an unknown lives in. -/
inductive Manifold where
  /-- Steps are added. -/
  | euclidean
  /-- Steps are motions applied from the left. -/
  | motions
  /-- Steps are motions on the first part and are added on the rest. -/
  | motionsWithEuclidean
  deriving DecidableEq

def Manifold.name : Manifold → String
  | euclidean => "euclidean"
  | motions => "se3"
  | motionsWithEuclidean => "se3_x_euclidean"

namespace VariableKind

/-- The name under which each kind is registered. -/
def name : VariableKind → String
  | pose => "pose_se3"
  | landmark => "landmark3d"
  | calibration => "cal3_s2"
  | camera => "camera"

def ofName? (s : String) : Option VariableKind :=
  [pose, landmark, calibration, camera].find? fun k => k.name = s

/-- How wide a step is. -/
def width : VariableKind → Nat
  | pose => poseWidth
  | landmark => pointWidth
  | calibration => calibrationWidth
  | camera => cameraWidth

/-- The space of each kind. -/
def manifold : VariableKind → Manifold
  | pose => .motions
  | camera => .motionsWithEuclidean
  | landmark | calibration => .euclidean

@[simp] theorem ofName?_name (k : VariableKind) : ofName? k.name = some k := by
  cases k <;> decide

end VariableKind

namespace Variable

/-- The space of the unknowns of a name; those of an unknown name add their steps. -/
def manifold (type : String) : Manifold :=
  match VariableKind.ofName? type with
  | some k => k.manifold
  | none => .euclidean

/-- How wide a step on the unknowns of a name is. -/
def tangentWidth (type : String) : Except Fault Nat :=
  match VariableKind.ofName? type with
  | some k => .ok k.width
  | none => .error (.unknownType type)

section Steps
variable {α : Type} [Scalar α]

def retract (type : String) (value delta : Tensor α) : Except Fault (Tensor α) :=
  match manifold type with
  | .euclidean => value.add delta
  | .motions => return .ofVec (← value.retract delta).toVec
  | .motionsWithEuclidean => do
    let pose ← (← value.slice 0 poseWidth).retract (← delta.slice 0 poseWidth)
    let rest ← (← dropFirst poseWidth value).add (← dropFirst poseWidth delta)
    (Tensor.ofVec pose.toVec).append rest
where
  /-- What follows the first places of the first axis. -/
  dropFirst (n : Nat) (t : Tensor α) : Except Fault (Tensor α) := t.slice n (t.shape.headD 0)

/-- The value of a key that has to be there. -/
def lookUp {β : Type} (t : Table Key β) (key : Key) : Except Fault β :=
  match t.find? key with
  | some v => .ok v
  | none => .error (.keyMissing key)

/-- The estimates after a step on some of them; the others stay. -/
def retractAll (values : Table Key (Tensor α)) (types : Table Key String)
    (deltas : Table Key (Tensor α)) : Except Fault (Table Key (Tensor α)) :=
  deltas.entries.foldlM (fun out e => do
    let type ← lookUp types e.1
    let value ← lookUp values e.1
    return out.insert e.1 (← retract type value e.2)) values

end Steps

/-! ### Orderings -/

/-- The slot of every key of an ordering. -/
def slotTable (ordering : List Key) : Except Fault (Table Key Count) :=
  (SlotTable.ordering ordering).toTable

/-- The step width of every key of an ordering. -/
def widths (ordering : List Key) (types : Table Key String) : Except Fault (List Nat) :=
  ordering.mapM fun key => do tangentWidth (← lookUp types key)

def counts (l : List Nat) : List Count := l.map fun n : Nat => .whole n

def layout (ordering : List Key) (types : Table Key String) : Except Fault Layout := do
  Layout.ofWidths ordering (counts (← widths ordering types))

end Variable
end BundleAdjustment
