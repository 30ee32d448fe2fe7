import QuadProg.Scalar

/-!
# Tolerances and parameters

A tolerance decides when a number counts as zero, as negligible next to another one, or as different
from another one. Comparisons with a value that is not a number fail, so such a value is neither
zero nor negligible nor different from anything.
-/

namespace QuadProg

/-- An absolute and a relative threshold. -/
structure Tolerance (α : Type) where
  /-- The relative threshold. -/
  relative : α
  /-- The absolute threshold, below which a number is zero. -/
  absolute : α

namespace Tolerance

variable {α : Type} [Scalar α]

/-- The number is zero. -/
def isZero (tol : Tolerance α) (v : α) : Bool := Scalar.abs v ≤ tol.absolute

/-- The number `v` is negligible next to `scale`; next to zero only zero is. -/
def isSmall (tol : Tolerance α) (scale v : α) : Bool :=
  if tol.isZero scale then tol.isZero v else Scalar.abs v ≤ tol.relative * Scalar.abs scale

/-- The numbers differ by more than both thresholds allow. -/
def differ (tol : Tolerance α) (a b : α) : Bool :=
  let d := Scalar.abs (a - b)
  tol.absolute < d && tol.relative * Scalar.max (Scalar.abs a) (Scalar.abs b) < d

end Tolerance

/-- The parameters of the solvers. -/
structure Params (α : Type) where
  /-- The largest number of iterations of a run. -/
  maxIter : Nat
  /-- The largest number of constraints that one iteration drops to get a solvable subproblem. -/
  maxRetry : Nat
  /-- A reduced cost above the negative of this does not enter the basis in the second phase. -/
  pivotThreshold : α
  /-- The threshold below which a pivot of a factorisation counts as zero. -/
  zeroThreshold : α
  /-- The tolerance of the ratio test of the simplex method. -/
  problem : Tolerance α
  /-- The tolerance of the objective at the end of the first phase. -/
  objective : Tolerance α
  /-- The tolerance of constraints. -/
  slack : Tolerance α
  /-- The tolerance of steps and multipliers. -/
  solution : Tolerance α

/-- The parameters used unless others are given. -/
def Params.standard {α : Type} [Scalar α] : Params α where
  maxIter := 10000
  maxRetry := 64
  pivotThreshold := Scalar.tenth 5
  zeroThreshold := Scalar.tenth 6
  problem := ⟨Scalar.tenth 5, Scalar.tenth 7⟩
  objective := ⟨Scalar.tenth 4, Scalar.tenth 5⟩
  slack := ⟨Scalar.tenth 4, Scalar.tenth 5⟩
  solution := ⟨Scalar.tenth 5, Scalar.tenth 7⟩

end QuadProg
