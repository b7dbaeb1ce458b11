import BundleAdjustment.Linear.Factor.Assembly
import BundleAdjustment.Observation
import BundleAdjustment.Solver.ConjugateGradient

/-!
Graphs: all unknowns and observations of one reconstruction.

A graph registers the kind of each unknown and keeps its observations in the order in which
they were added. From estimates it computes the total error, the linear factors of the active
observations, and from these the information matrix or one solved step.
-/
namespace BundleAdjustment

/-- The registered unknowns and the observations. -/
structure Graph (α : Type) where
  types : Table Key String
  observations : List (Observation α)

namespace Graph
variable {α : Type}

def empty : Graph α := ⟨Table.empty, []⟩

/-- Registers the kind of an unknown, which can be repeated but not changed. -/
def register (types : Table Key String) (key : Key) (type : String) :
    Except Fault (Table Key String) :=
  match types.find? key with
  | some old => if old = type then .ok (types.insert key type) else .error (.typeConflict key old)
  | none => .ok (types.insert key type)

/-- Registers unknowns one after the other. The first conflict ends the work, and what was
registered before it stays. -/
def registerAll (types : Table Key String) :
    List (Key × VariableKind) → Table Key String × Except Fault Unit
  | [] => (types, .ok ())
  | (key, kind) :: rest =>
    match register types key kind.name with
    | .ok types' => registerAll types' rest
    | .error e => (types, .error e)

def addVariable (g : Graph α) (key : Key) (type : String) : Except Fault (Graph α) := do
  return { g with types := ← register g.types key type }

/-- Adds an observation and registers its unknowns. After a conflict the observation is not
added, but the unknowns before the conflict are registered. -/
def addObservation (g : Graph α) (o : Observation α) : Graph α × Except Fault Unit :=
  match registerAll g.types (o.keys.zip o.kind.unknowns) with
  | (types, .ok ()) => (⟨types, g.observations ++ [o]⟩, .ok ())
  | (types, .error e) => ({ g with types := types }, .error e)

/-- Switches an observation on or off by its position; a negative one counts from the end. -/
def setEnabled (g : Graph α) (position : Int) (enabled : Bool) : Except Fault (Graph α) :=
  let n := g.observations.length
  let i := if position < 0 then position + n else position
  if 0 ≤ i ∧ i < n then
    .ok { g with observations := g.observations.modify i.toNat fun o => o.setEnabled enabled }
  else .error .noObservation

def size (g : Graph α) : Nat := g.observations.length

def keys (g : Graph α) : List Key := g.types.keys

/-- The layout of an ordering, by default that of registration. -/
def layout (g : Graph α) (ordering : Option (List Key)) : Except Fault Layout :=
  Variable.layout (ordering.getD g.keys) g.types

variable [Scalar α]

/-- The linear factors of the active observations. -/
def linearize (g : Graph α) (values : Table Key (Tensor α)) :
    Noted α (List (LinearFactor α)) := do
  let linear ← g.observations.mapM fun o => o.linearize values
  let kept := linear.filterMap id
  if kept.length ≠ linear.length then
    Noted.note (.inactiveSkipped (linear.length - kept.length))
  return kept

def error (g : Graph α) (values : Table Key (Tensor α)) : Noted α α :=
  g.observations.foldlM (fun total o => return total + (← o.error values)) 0

/-- The information matrix of factors, with a note of how many there were. -/
def accumulate (factors : List (Option (LinearFactor α))) (slots : SlotTable)
    (widths : List Count) : Noted α (BlockMatrix α) := do
  let M ← BlockMatrix.accumulate factors slots widths
  Noted.note (.accumulated (factors.filterMap id).length M.stored.length)
  return M

/-- The information matrix in an ordering, by default that of registration. -/
def hessian (g : Graph α) (values : Table Key (Tensor α)) (ordering : Option (List Key)) :
    Noted α (BlockMatrix α) := do
  let slots ← Variable.slotTable (ordering.getD g.keys)
  let widths ← Variable.widths slots.keys g.types
  accumulate ((← g.linearize values).map some) (.mapping slots) (Variable.counts widths)

/-- The estimates after one solved step, and how the solver ended. -/
def step (g : Graph α) (values : Table Key (Tensor α)) (ordering : Option (List Key))
    (settings : Solver.Settings α) : Noted α (Solver.Solution α × Table Key (Tensor α)) := do
  let layout ← g.layout ordering
  let solution ← Solver.conjugateGradient (← g.linearize values) layout settings
  let deltas ← layout.unpack (.ofVec solution.step)
  return (solution, ← Variable.retractAll values g.types (Solver.asContainer deltas))

end Graph
end BundleAdjustment
