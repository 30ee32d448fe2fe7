import QuadProg.Defect
import QuadProg.Status
import QuadProg.WorkingSet

/-!
# Traces of a run

A run returns, beside its result, the list of what happened on the way. An `Event` is something that
an observer of the run is told; a `Note` is a remark for the report of the run. Both stand in one
list, in the order in which they occurred.
-/

namespace QuadProg

/-- The two phases of the simplex method. -/
inductive Phase where
  /-- Drives the artificial variables out of the basis. -/
  | one
  /-- Minimises the cost. -/
  | two
deriving DecidableEq

/-- The name of a phase. -/
def Phase.name : Phase → String
  | one => "One"
  | two => "Two"

/-- What an observer of a run is told. -/
inductive Event (α : Type) where
  /-- An iteration is about to start after `count` of them. -/
  | iteration (count : Nat) (status : Status)
  /-- A pivot was made; `basis` and `objective` are those after it. -/
  | pivot (phase : Phase) (row col : Nat) (basis : Array Int) (objective : α)
  /-- The status changed. -/
  | transition (source target : Status)

/-- A remark for the report of a run. -/
inductive Note (α : Type) where
  /-- The problem is not accepted. -/
  | defect (d : Defect)
  /-- The start is being prepared. -/
  | initializing
  /-- The iterations start. -/
  | started
  /-- An optimum was found. -/
  | converged
  /-- The limit of iterations is reached. -/
  | iterationLimit
  /-- A linear program ended without a usable point. -/
  | linearFailure (status : Status)
  /-- A quadratic program ended without a usable point. -/
  | quadraticFailure (status : Status)
  /-- The simplex method starts on this many rows and columns. -/
  | simplexStart (rows cols : Nat)
  /-- The tableau at the start. -/
  | tableau (grid : Mat α)
  /-- The second phase starts with this many artificial variables in the basis. -/
  | secondPhase (artificials : Nat)
  /-- The simplex method is done. -/
  | simplexEnd (status : Status) (pivots : Nat) (objective : α)
  /-- The linear program for a starting point did not find one. -/
  | noStart (status : Status)
  /-- The working set at the start. -/
  | initialSet (working : WorkingSet)
  /-- The constraints that join and leave the working set. -/
  | exchange (iteration : Nat) (joining leaving : Option Nat)
  /-- The system of the subproblem is singular. -/
  | unsolvable (iteration : Nat)
  /-- No more constraints may be dropped. -/
  | retryLimit (limit : Nat) (working : WorkingSet)
  /-- A step of this length was made, limited by a constraint if one is given. -/
  | step (iteration : Nat) (length : α) (blocking : Option Nat)

/-- An entry of a trace. -/
inductive Record (α : Type) where
  /-- Told to observers. -/
  | event (e : Event α)
  /-- For the report only. -/
  | note (n : Note α)

/-- What happened in a run, in order. -/
abbrev Trace (α : Type) := List (Record α)

/-- The result of solving a problem and how it came about. -/
structure Outcome (α : Type) where
  /-- The solution, or what is wrong with the problem. -/
  result : Except Defect (Solution α)
  /-- What happened on the way. -/
  trace : Trace α

namespace Trace

variable {α : Type}

/-- The events of a trace. -/
def events (t : Trace α) : List (Event α) :=
  t.filterMap fun
    | .event e => some e
    | .note _ => none

/-- The record of a change of status; staying is not recorded. -/
def transition (source target : Status) : Trace α :=
  if source = target then [] else [.event (.transition source target)]

@[simp] theorem events_nil : events ([] : Trace α) = [] := rfl

@[simp] theorem events_append (s t : Trace α) : events (s ++ t) = s.events ++ t.events := by
  simp [events]

@[simp] theorem events_event (e : Event α) (t : Trace α) :
    events (.event e :: t) = e :: t.events := rfl

@[simp] theorem events_note (n : Note α) (t : Trace α) : events (.note n :: t) = t.events := rfl

end Trace

end QuadProg
