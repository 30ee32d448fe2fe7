import QuadProg.QuadraticProgram

/-!
# Active rows

The subproblems of the active-set method treat the equality constraints and the inequalities of the
working set as equations. If there are no equality constraints, their matrix is left out altogether.
-/

namespace QuadProg

/-- Which constraints are treated as equations. -/
inductive ActiveRows where
  /-- The equality constraints and then the inequalities of the working set. -/
  | withEqualities
  /-- The inequalities of the working set alone. -/
  | inequalitiesOnly
deriving DecidableEq

namespace ActiveRows

variable {α : Type} [Scalar α]

/-- The choice for a program with `me` equality constraints. -/
def ofCount (me : Nat) : ActiveRows := if 0 < me then withEqualities else inequalitiesOnly

/-- The number of active rows. -/
def count (k : ActiveRows) (p : QuadraticProgram α) (active : List Nat) : Nat :=
  match k with
  | withEqualities => p.me + active.length
  | inequalitiesOnly => active.length

/-- The matrix of the active rows. -/
def matrix? (k : ActiveRows) (p : QuadraticProgram α) (active : List Nat) : Checked (Mat α) := do
  let rows ← p.ai.select? active
  match k with
  | withEqualities => p.ae.above? rows
  | inequalitiesOnly => return rows

/-- The right-hand side of the active rows. -/
def bounds? (k : ActiveRows) (p : QuadraticProgram α) (active : List Nat) : Checked (Mat α) := do
  let bounds ← p.bi.select? active
  match k with
  | withEqualities => p.be.above? bounds
  | inequalitiesOnly => return bounds

end ActiveRows

end QuadProg
