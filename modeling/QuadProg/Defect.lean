import QuadProg.Mat.Basic

/-!
# Defects of a problem

A problem is given by matrices whose sizes have to fit together. A defect says what does not fit and
carries the sizes involved; `Defect.text` is its report. All that a caller learns of it is the
`Rejection`, one of three kinds with a fixed message.
-/

namespace QuadProg

/-- The two kinds of constraints. -/
inductive ConstraintKind where
  /-- Rows `a x = b`. -/
  | equality
  /-- Rows `a x ≤ b`. -/
  | inequality
deriving DecidableEq

/-- The letter that marks matrices of this kind. -/
def ConstraintKind.letter : ConstraintKind → String
  | equality => "e"
  | inequality => "i"

/-- Why a problem was not accepted. -/
inductive Rejection where
  /-- The sizes of the matrices do not fit together. -/
  | inconsistentSizes
  /-- Constraints were given without their bounds or the other way round. -/
  | missingPair
  /-- The equality constraints are linearly dependent. -/
  | rankDeficient
deriving DecidableEq

/-- The message shown for a rejected problem. -/
def Rejection.message : Rejection → String
  | inconsistentSizes => "InvalidOp: inconsistent sizes of problem matrices"
  | missingPair => "MissingPair: constraint matrix and right-hand side not given together"
  | rankDeficient => "RankDeficient: equality constraints not of full row rank"

/-- What is wrong with a problem. -/
inductive Defect where
  /-- The constraints do not have `n` columns, or their bounds do not form a column of that length.
  -/
  | pairSizes (kind : ConstraintKind) (matrix bounds : Nat × Nat) (n : Nat)
  /-- Constraints were given without their bounds or the other way round. -/
  | pairIncomplete (kind : ConstraintKind)
  /-- The cost is not a column. -/
  | costSize (cost : Nat × Nat)
  /-- The quadratic term or the cost does not fit the number of variables. -/
  | objectiveSizes (quadratic cost : Nat × Nat)
  /-- The equality constraints have a smaller rank than rows. -/
  | dependentRows (rank rows : Nat)
deriving DecidableEq

namespace Defect

/-- The kind of rejection that a defect leads to. -/
def rejection : Defect → Rejection
  | pairSizes .. | costSize _ | objectiveSizes .. => .inconsistentSizes
  | pairIncomplete _ => .missingPair
  | dependentRows .. => .rankDeficient

/-- A size as text. -/
def sizeText (size : Nat × Nat) : String :=
  "(" ++ toString size.1 ++ ", " ++ toString size.2 ++ ")"

/-- The report of a defect. -/
def text : Defect → String
  | pairSizes kind matrix bounds n =>
    "Size mismatch: mat_a" ++ kind.letter ++ sizeText matrix ++ ", vec_b" ++ kind.letter ++
      sizeText bounds ++ ", n " ++ toString n
  | pairIncomplete kind =>
    "Either mat_a" ++ kind.letter ++ " or vec_b" ++ kind.letter ++ " is missing"
  | costSize cost => "Size mismatch: vec_c" ++ sizeText cost
  | objectiveSizes quadratic cost =>
    "Size mismatch: mat_q" ++ sizeText quadratic ++ ", vec_c" ++ sizeText cost
  | dependentRows rank rows =>
    "Rank of mat_ae " ++ toString rank ++ " must be " ++ toString rows

end Defect

/-- The number of rows of a pair of constraints and bounds over `n` variables, zero if neither is
given. -/
def checkPair {α : Type} (kind : ConstraintKind) (n : Nat) :
    Option (Mat α) → Option (Mat α) → Except Defect Nat
  | none, none => .ok 0
  | some a, some b =>
    if a.cols = n ∧ b.size = (a.rows, 1) then .ok a.rows
    else .error (.pairSizes kind a.size b.size n)
  | _, _ => .error (.pairIncomplete kind)

end QuadProg
