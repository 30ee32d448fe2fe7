import QuadProg.ActiveSet.Rows
import QuadProg.Memory.Mat

/-!
# Programs in memory

Questions about a quadratic program whose data need not fit together. Constraints without columns
may claim any number of rows, so the numbers of rows are added and the vectors over them are made
only within the limits of memory.
-/

namespace QuadProg

namespace Memory

variable {α : Type} [Scalar α]

/-- There is a constraint. -/
def isConstrained? (p : QuadraticProgram α) : Checked Bool :=
  guarded (p.me + p.mi < wordBound) .tooLarge p.isConstrained

/-- The zero point. -/
def origin? (p : QuadraticProgram α) : Checked (Vec α) :=
  guarded (Addressable (Scalar.width α) p.n) .tooLarge p.origin

/-- The point satisfies the constraints, where `same` decides whether a bound is met. -/
def isFeasible? (p : QuadraticProgram α) (x : Vec α) (same : α → α → Bool) : Checked Bool := do
  require (Addressable (Scalar.width α) p.me ∧ Addressable (Scalar.width α) p.mi) .tooLarge
  p.isFeasible? x same

/-- The number of active rows. -/
def countActive? (k : ActiveRows) (p : QuadraticProgram α) (active : List Nat) : Checked Nat :=
  guarded (k.count p active < wordBound) .tooLarge (k.count p active)

/-- The matrix of the active rows. -/
def activeMatrix? (k : ActiveRows) (p : QuadraticProgram α) (active : List Nat) :
    Checked (Mat α) := do
  let rows ← k.matrix? p active
  guarded (rows.rows < wordBound) .tooLarge rows

/-- The right-hand side of the active rows. -/
def activeBounds? (k : ActiveRows) (p : QuadraticProgram α) (active : List Nat) :
    Checked (Mat α) := do
  let bounds ← k.bounds? p active
  guarded (bounds.rows < wordBound) .tooLarge bounds

end Memory

end QuadProg
