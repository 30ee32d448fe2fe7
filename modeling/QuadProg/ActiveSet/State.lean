import QuadProg.Factor.Cholesky
import QuadProg.QuadraticProgram
import QuadProg.Tolerance
import QuadProg.Trace

/-!
# The state of the active-set method

Everything that the method carries from one iteration to the next, and the two small changes that
several of its stages make: a new status, and dropping a constraint from the working set.
-/

namespace QuadProg

namespace ActiveSet

/-- The state between two stages of the method. -/
structure State (α : Type) where
  /-- What is known about the point. -/
  status : Status
  /-- The current point. -/
  x : Vec α
  /-- The multipliers, those of the equality constraints first. Outside of the working set they are
  zero. -/
  multipliers : Vec α
  /-- The inequalities that are treated as equations. -/
  working : WorkingSet
  /-- The factor of the quadratic term. -/
  cholesky : Cholesky α
  /-- The factors of the system solved last. -/
  lu : LU α
  /-- The unconstrained minimiser, once it is known. -/
  minimizer : Option (Vec α)
  /-- The inequality that limited the last step. -/
  blocking : Option Nat
  /-- The number of iterations made. -/
  iterations : Nat

/-- The result of a stage: the new state and what happened. -/
structure Stage (α : Type) where
  /-- The state after the stage. -/
  state : State α
  /-- What happened. -/
  trace : Trace α

namespace State

variable {α : Type} [Scalar α]

/-- The state before anything is known about a program. -/
def init (p : QuadraticProgram α) (threshold : α) : State α where
  status := .unexplored
  x := Vec.zeros p.n
  multipliers := Vec.zeros (p.me + p.mi)
  working := WorkingSet.empty p.mi
  cholesky := Cholesky.init threshold
  lu := LU.init threshold
  minimizer := none
  blocking := none
  iterations := 0

/-- The state before anything is known about a program, refused if there is no room for it. -/
def init? (p : QuadraticProgram α) (threshold : α) : Checked (State α) :=
  guarded p.Fits .tooLarge (init p threshold)

/-- The state with a new status, and the record of the change. -/
def moveTo (s : State α) (status : Status) : Stage α :=
  ⟨{ s with status }, Trace.transition s.status status⟩

/-- Prefers the inequality `i` if its multiplier is at least as large as that of the candidate. -/
def heavier (s : State α) (me : Nat) (best : Nat × α) (i : Nat) : Nat × α :=
  let v := Scalar.abs (s.multipliers.entry (me + i))
  if best.2 ≤ v then (i, v) else best

/-- The member of the working set with the multiplier of the largest magnitude, the last one of a
tie. -/
def heaviest (s : State α) (me : Nat) : Option Nat :=
  match s.working.members with
  | [] => none
  | first :: rest => some ((first :: rest).foldl (s.heavier me) (first, 0)).1

/-- The state with an inequality dropped from the working set and its multiplier cleared. -/
def drop (s : State α) (me i : Nat) : State α :=
  { s with
    working := s.working.erase i
    multipliers := s.multipliers.setIfInBounds (me + i) 0 }

/-- Every member of the working set has a multiplier. -/
def CoversWorking (s : State α) (me : Nat) : Prop :=
  ∀ i ∈ s.working.members, me + i < s.multipliers.size

instance (s : State α) (me : Nat) : Decidable (s.CoversWorking me) :=
  inferInstanceAs (Decidable (∀ i ∈ s.working.members, me + i < s.multipliers.size))

/-- Drops the member with the multiplier of the largest magnitude, if there is a member. -/
def shrink (s : State α) (me : Nat) : State α :=
  match s.heaviest me with
  | some i => s.drop me i
  | none => s

/-- Drops the member with the multiplier of the largest magnitude, refused if a member has no
multiplier. -/
def shrink? (s : State α) (me : Nat) : Checked (State α) :=
  guarded (s.CoversWorking me) .outOfRange (s.shrink me)

end State

end ActiveSet

end QuadProg
