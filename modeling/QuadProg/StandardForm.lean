import QuadProg.Memory.Mat

/-!
# Standard forms

A linear program in standard form has equations and non-negative variables only. Before the simplex
method starts, rows with a negative right-hand side are negated; which ones is remembered, since
their multipliers change sign.
-/

namespace QuadProg

/-- A program to minimise `c x` subject to `A x = b` and `x ≥ 0`. -/
structure StandardForm (α : Type) where
  /-- The constraints. -/
  a : Mat α
  /-- The right-hand side. -/
  b : Mat α
  /-- The cost. -/
  c : Mat α

/-- Constraint rows whose right-hand side has been made non-negative. -/
structure SignedRows (α : Type) where
  /-- The rows that were negated. -/
  flips : Array Bool
  /-- The constraints. -/
  a : Mat α
  /-- The right-hand side. -/
  b : Mat α

/-- There is room for a program in standard form with `m` rows and `n` columns: for its constraints,
its right-hand side and its cost. -/
def StandardForm.Fits (α : Type) [Scalar α] (m n : Nat) : Prop :=
  Memory.Holds α (.general m n) ∧ Memory.Holds α (.general m 1) ∧ Memory.Holds α (.general n 1)

instance (α : Type) [Scalar α] (m n : Nat) : Decidable (StandardForm.Fits α m n) :=
  inferInstanceAs (Decidable (_ ∧ _ ∧ _))

variable {α : Type} [Scalar α]

/-- Negates the rows with a negative right-hand side. -/
def signedRows (a b : Mat α) : SignedRows α where
  flips := Array.ofFn fun r : Fin a.rows => decide (b.get r 0 < 0)
  a := Mat.ofFn a.shape fun r c => if b.get r 0 < 0 then -1 * a.get r c else a.get r c
  b := Mat.ofFn b.shape fun r c => if b.get r 0 < 0 then -b.get r c else b.get r c

/-- Negates the rows with a negative right-hand side; rows of a packed matrix cannot be negated. -/
def signedRows? (a b : Mat α) : Checked (SignedRows α) := do
  require (b.size = (a.rows, 1)) .sizeMismatch
  guarded (a.shape.isPacked = false ∨ ∀ r ∈ List.range a.rows, ¬ b.get r 0 < 0) .packedStorage
    (signedRows a b)

end QuadProg
