import QuadProg.ActiveSet.Rows
import QuadProg.ActiveSet.State
import QuadProg.Kkt

/-!
# Subproblems

A subproblem minimises the objective subject to the active rows as equations. If the quadratic term
has a factor and there are fewer rows than variables, the multipliers come from the Schur complement
`A Q⁻¹ Aᵀ` and the point from them; otherwise, or if that matrix is singular, point and multipliers
come from the bordered system. Both routes leave their factors in the state.
-/

namespace QuadProg

namespace ActiveSet

variable {α : Type} [Scalar α]

/-- The solution of a subproblem. -/
structure Target (α : Type) where
  /-- The minimiser. -/
  x : Vec α
  /-- The multipliers of the active rows. -/
  multipliers : Vec α

/-- The outcome of a subproblem: its solution, if it has one, and the factors used last. -/
structure Attempt (α : Type) where
  /-- The solution. -/
  target : Option (Target α)
  /-- The factors used last. -/
  lu : LU α

/-- The unconstrained minimiser, remembered or computed. -/
def minimizer? (p : QuadraticProgram α) (s : State α) : Checked (Vec α) :=
  match s.minimizer with
  | some x => .ok x
  | none => s.cholesky.solveVec? p.c.data

/-- Solves by the Schur complement of the rows `a` with the bounds `b`. -/
def solveBySchur? (p : QuadraticProgram α) (s : State α) (a b : Mat α) :
    Checked (Attempt α) := do
  let w ← s.cholesky.solve? a.transpose
  let schur ← a.mul? w
  let lu ← s.lu.compute? schur
  if lu.isSolvable then
    let free ← minimizer? p s
    let residual ← a.transform? 1 free (-1) b.data
    let l ← lu.solveVec? residual
    let g ← a.transformTranspose? (-1) l 1 p.c.data
    let x ← s.cholesky.solveVec? g
    return ⟨some ⟨x, l⟩, lu⟩
  else
    return ⟨none, lu⟩

/-- Solves by the bordered system of the rows `a` with the bounds `b`. -/
def solveByKkt? (p : QuadraticProgram α) (lu : LU α) (a b : Mat α) : Checked (Attempt α) := do
  let system ← kktSystem? p.q a p.c b
  let lu ← lu.compute? system.matrix
  if lu.isSolvable then
    let xl ← lu.solveVec? system.rhs.data
    return ⟨some ⟨xl.extract 0 p.n, xl.extract p.n xl.size⟩, lu⟩
  else
    return ⟨none, lu⟩

/-- Solves the subproblem of the listed inequalities. -/
def subproblem? (p : QuadraticProgram α) (s : State α) (active : List Nat) :
    Checked (Attempt α) := do
  let kind := ActiveRows.ofCount p.me
  let rows := kind.count p active
  let a ← kind.matrix? p active
  let b ← kind.bounds? p active
  if rows < p.n && s.cholesky.isSolvable then
    if rows = 0 then
      let x ← s.cholesky.solveVec? p.c.data
      return ⟨some ⟨x, #[]⟩, s.lu⟩
    else
      let attempt ← solveBySchur? p s a b
      if attempt.target.isSome then return attempt
      else solveByKkt? p attempt.lu a b
  else
    solveByKkt? p s.lu a b

end ActiveSet

end QuadProg
