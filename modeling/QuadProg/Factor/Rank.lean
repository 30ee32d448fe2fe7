import QuadProg.Factor.LU

/-!
# Numerical rank

The rank is the number of pivots found by elimination with row exchanges. Columns are taken in
order; a column whose largest remaining entry does not exceed the threshold is passed over. The
threshold is relative to the largest magnitude in the matrix.
-/

namespace QuadProg

namespace Rank

variable {α : Type} [Scalar α]

/-- Eliminates below the pivot at `(row, c)`, from the column `c` on. -/
def eliminate (a : Mat α) (row c : Nat) : Mat α :=
  Mat.ofFn a.shape fun r j =>
    if row < r ∧ c ≤ j then a.get r j - a.get r c / a.get row c * a.get row j else a.get r j

/-- Continues with the last `left` columns when `found` pivots have been found. -/
def sweep (threshold : α) : Nat → Nat → Mat α → Nat × Mat α
  | 0, found, a => (found, a)
  | left + 1, found, a =>
    if found = a.rows then (found, a)
    else
      let c := a.cols - (left + 1)
      let p := a.pivotFrom found c
      if threshold < p.magnitude then
        sweep threshold left (found + 1) (eliminate (a.swapRows found p.row) found c)
      else sweep threshold left found a

/-- The number of pivots of a matrix in full storage, and what elimination leaves of it. -/
def reduce (a : Mat α) (relative : α) : Nat × Mat α :=
  sweep (relative * a.maxAbs) a.cols 0 a

/-- A sweep finds at most one pivot for each row and each column. -/
theorem sweep_le (threshold : α) (left found : Nat) (a : Mat α) (h : found ≤ a.rows) :
    (sweep threshold left found a).1 ≤ a.rows ∧
      (sweep threshold left found a).1 ≤ found + left := by
  induction left generalizing found a with
  | zero => exact ⟨h, Nat.le_refl _⟩
  | succ left ih =>
    unfold sweep
    split
    · exact ⟨h, by omega⟩
    · next hne =>
      dsimp only
      split
      · have hrows : (eliminate (a.swapRows found
            (a.pivotFrom found (a.cols - (left + 1))).row) found (a.cols - (left + 1))).rows
            = a.rows := rfl
        have := ih (found + 1) (eliminate (a.swapRows found
            (a.pivotFrom found (a.cols - (left + 1))).row) found (a.cols - (left + 1)))
            (by rw [hrows]; omega)
        rw [hrows] at this
        exact ⟨this.1, by omega⟩
      · have := ih found a h
        exact ⟨this.1, by omega⟩

end Rank

/-- The numerical rank of a matrix. -/
def Mat.rank {α : Type} [Scalar α] (a : Mat α) (relative : α) : Nat :=
  if a.rows = 0 ∨ a.cols = 0 then 0
  else if a.isZero then 0
  else (Rank.reduce a.toGeneral relative).1

end QuadProg
