import QuadProg.Memory.Mat
import QuadProg.Trace

/-!
# The simplex tableau

A linear program in standard form asks for the least `c x` with `A x = b` and `x ≥ 0`, where `b ≥
0`. With one artificial variable for each row, `A x + a = b` has the solution `x = 0`, `a = b`. The
tableau of an `m × n` program has `m + 2` rows and `n + m + 1` columns: the constraint rows, then
the row of the cost, then the row of the sum of the artificial variables; the columns of `x`, then
those of `a`, then the right-hand side. Both objective rows hold reduced costs and the negated
objective.

The basis holds, for each row, the column of its basic variable if that is one of `x`, and a
negative number if it is artificial.
-/

namespace QuadProg

/-- A tableau with its basis and the progress of the run that works on it. -/
structure Tableau (α : Type) where
  /-- The number of columns of the program. -/
  n : Nat
  /-- The number of rows of the program. -/
  m : Nat
  /-- The entries. -/
  grid : Mat α
  /-- The basic variable of each row. -/
  basis : Array Int
  /-- The columns of the program that are basic. -/
  columns : WorkingSet
  /-- The phase. -/
  phase : Phase
  /-- What is known about the basic solution. -/
  status : Status
  /-- The number of pivots made. -/
  iterations : Nat

namespace Tableau

variable {α : Type} [Scalar α]

/-- The entries of the tableau at the start. The row of the artificial variables is the negated sum
of the constraint rows, taken one row at a time. -/
def initialEntry (a b c : Mat α) (m n r j : Nat) : α :=
  if r < m then
    if j < n then a.get r j else if j = n + m then b.get r 0 else if j = n + r then 1 else 0
  else if r = m then
    if j < n then c.get j 0 else 0
  else
    if j < n then Scalar.diffTo 0 (fun i => a.get i j) m
    else if j = n + m then Scalar.diffTo 0 (fun i => b.get i 0) m
    else 0

/-- The tableau of a program in standard form, with all artificial variables basic. -/
def ofStandardForm (a b c : Mat α) : Tableau α :=
  let m := a.rows
  let n := a.cols
  { n, m
    grid := Mat.ofFn (.general (m + 2) (n + m + 1)) (initialEntry a b c m n)
    basis := Array.ofFn fun r : Fin m => (r : Int) - m
    columns := WorkingSet.empty n
    phase := .one
    status := .valid
    iterations := 0 }

/-- There is room for the tableau of an `m × n` program, and for the list of its columns that every
search for a pivot makes. -/
def Fits (α : Type) [Scalar α] (m n : Nat) : Prop :=
  Memory.Holds α (.general (m + 2) (n + m + 1)) ∧ Memory.HoldsList α n

instance (m n : Nat) : Decidable (Fits α m n) :=
  inferInstanceAs (Decidable (_ ∧ _))

/-- The tableau of a program whose sizes fit and whose right-hand side is non-negative, refused if
there is no room for it. -/
def ofStandardForm? (a b c : Mat α) : Checked (Tableau α) := do
  require (b.size = (a.rows, 1) ∧ c.size = (a.cols, 1)) .sizeMismatch
  require (Fits α a.rows a.cols) .tooLarge
  guarded (∀ r ∈ List.range a.rows, 0 ≤ b.get r 0) .negativeRhs (ofStandardForm a b c)

/-! ## Reading the tableau -/

/-- The right-hand side of a row. -/
def rhs (t : Tableau α) (r : Nat) : α := t.grid.get r (t.n + t.m)

/-- The row of the objective of the current phase. -/
def objectiveRow (t : Tableau α) : Nat :=
  match t.phase with
  | .one => t.m + 1
  | .two => t.m

/-- The objective of the current phase at the basic solution. -/
def objective (t : Tableau α) : α := -t.rhs t.objectiveRow

/-- The sum of the artificial variables at the basic solution. -/
def infeasibility (t : Tableau α) : α := -t.rhs (t.m + 1)

/-- The cost at the basic solution. -/
def cost (t : Tableau α) : α := -t.rhs t.m

/-- The basic variable of a row is artificial. -/
def isArtificial (t : Tableau α) (r : Nat) : Bool := t.basis.getD r 0 < 0

/-- The number of artificial variables in the basis. -/
def artificials (t : Tableau α) : Nat := t.basis.countP (· < 0)

/-- Gives the basic variable of the row `r` the value of its right-hand side. -/
def placeBasic (t : Tableau α) (x : Vec α) (r : Nat) : Vec α :=
  let j := t.basis.getD r (-1)
  if 0 ≤ j then x.setIfInBounds j.toNat (t.rhs r) else x

/-- The basic solution: variables that are not basic are zero. -/
def point (t : Tableau α) : Vec α := (List.range t.m).foldl t.placeBasic (Vec.zeros t.n)

/-- The dual variables of the rows. -/
def duals (t : Tableau α) : Vec α := Array.ofFn fun j : Fin t.m => -t.grid.get t.m (t.n + j)

/-- The reduced costs of the columns of the program. -/
def reducedCosts (t : Tableau α) : Vec α := Array.ofFn fun j : Fin t.n => t.grid.get t.m j

/-- The outcome of a run that stops here. -/
def solution (t : Tableau α) : Solution α :=
  { status := t.status, x := t.point, multipliers := some t.duals, value := t.cost,
    iterations := t.iterations }

end Tableau

end QuadProg
