import BundleAdjustment.Fault
import BundleAdjustment.Scalar
import BundleAdjustment.Text.Decimal

/-!
The journal: what a computation notes on its way.

Notes never change a result, and they stay when the computation fails later on. A computation
with notes is therefore a state over the notes beneath a possible fault.
-/
namespace BundleAdjustment

/-- How urgent a note is. -/
inductive Level where
  | debug
  | warning
  deriving DecidableEq

/-- What is noted. -/
inductive Event (α : Type) where
  /-- An observed landmark does not lie in front of its camera. -/
  | behindCamera (landmark camera : String)
  /-- Observations that are switched off were left out of a linearization. -/
  | inactiveSkipped (count : Nat)
  /-- Linear factors were folded into an information matrix. -/
  | accumulated (factors blocks : Nat)
  /-- An iteration made a step that leaves a residual of some length. -/
  | stepTaken (iteration : Nat) (residual : α)
  /-- An iteration met a direction without positive curvature. -/
  | flatCurvature (iteration : Nat) (curvature : α)

namespace Event

def level {α : Type} : Event α → Level
  | behindCamera .. => .warning
  | flatCurvature .. => .warning
  | inactiveSkipped .. => .debug
  | accumulated .. => .debug
  | stepTaken .. => .debug

/-- The wording of each note, given a way to write numbers. -/
def message {α : Type} (number : α → String) : Event α → String
  | behindCamera landmark camera =>
    "cheirality: landmark " ++ landmark ++ " behind camera " ++ camera
  | inactiveSkipped count => "skipped " ++ toString count ++ " inactive factors"
  | accumulated factors blocks =>
    "accumulated " ++ toString factors ++ " linear factors into " ++ toString blocks ++
      " blocks"
  | stepTaken iteration residual =>
    "CG iter " ++ toString iteration ++ ": |r| = " ++ number residual
  | flatCurvature iteration curvature =>
    "CG stopped at iteration " ++ toString iteration ++ ": non-positive curvature " ++
      number curvature

/-- The wording of a note on binary64 numbers, which are written to three places. -/
def text (e : Event Float) : String := e.message (Text.scientific 3)

/-- The notes on steps that follow one another, the first of which has the number `n`, by the
lengths of the residuals that they leave. -/
def steps {α : Type} (n : Nat) : (residuals : List α) → List (Event α)
  | [] => []
  | r :: rest => stepTaken n r :: steps (n + 1) rest

theorem steps_append {α : Type} (n : Nat) (a b : List α) :
    steps n (a ++ b) = steps n a ++ steps (n + a.length) b := by
  induction a generalizing n with
  | nil => rfl
  | cons r rest ih =>
    have hn : n + 1 + rest.length = n + (r :: rest).length := by
      rw [List.length_cons, Nat.add_right_comm, Nat.add_assoc]
    rw [List.cons_append, steps, ih, hn]
    rfl

end Event

/-- A computation that may fail and keeps notes, oldest first. -/
abbrev Noted (α : Type) := ExceptT Fault (StateM (List (Event α)))

namespace Noted
variable {α β : Type}

def note (e : Event α) : Noted α Unit := fun notes => (.ok (), notes ++ [e])

/-- A computation without notes of its own. -/
def ofExcept (r : Except Fault β) : Noted α β := fun notes => (r, notes)

instance : MonadLift (Except Fault) (Noted α) := ⟨ofExcept⟩

/-- Runs a computation from an empty journal. -/
def start (m : Noted α β) : Except Fault β × List (Event α) := m.run.run []

end Noted
end BundleAdjustment
