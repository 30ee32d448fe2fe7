import QuadProg.Mat.Block

/-!
# Optimality systems

A point minimises `½ x Q x - c x` subject to `A x = b` together with multipliers `l` if it solves
the bordered system

    [ Q  Aᵀ ] [ x ]   [ c ]
    [ A  0  ] [ l ] = [ b ]
-/

namespace QuadProg

/-- A system of linear equations. -/
structure LinearSystem (α : Type) where
  /-- The coefficients. -/
  matrix : Mat α
  /-- The right-hand side. -/
  rhs : Mat α

variable {α : Type} [Scalar α]

/-- The bordered system of an equality constrained problem. Without constraints it is `Q x = c`. -/
def kktSystem (q a c b : Mat α) : LinearSystem α :=
  if a.rows = 0 then ⟨q.toGeneral, c.toGeneral⟩
  else
    { matrix := (q.beside a.transpose).above (a.beside (Mat.zeros (.general a.rows a.rows)))
      rhs := c.above b }

/-- The bordered system for matrices that fit together. -/
def kktSystem? (q a c b : Mat α) : Checked (LinearSystem α) :=
  guarded (q.size = (a.cols, a.cols) ∧ c.size = (a.cols, 1) ∧ b.size = (a.rows, 1)) .sizeMismatch
    (kktSystem q a c b)

end QuadProg
