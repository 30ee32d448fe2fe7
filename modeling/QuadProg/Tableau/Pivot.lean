import QuadProg.Selection
import QuadProg.Tableau.Basic
import QuadProg.Tolerance

/-!
# Pivots

Pivoting exchanges a basic variable for another one by eliminating its column from all other rows.
The entering column is the one that lowers the objective fastest, the leaving row the one that first
brings its basic variable to zero. An artificial variable that has left never comes back, since only
columns of the program enter.
-/

namespace QuadProg

namespace Tableau

variable {α : Type} [Scalar α]

/-! ## Choosing a pivot -/

/-- The column to enter the basis: the first one of the least reduced cost that is negative, in the
second phase by more than the threshold. -/
def enteringColumn (par : Params α) (t : Tableau α) : Option Nat :=
  let bound : α :=
    match t.phase with
    | .one => 0
    | .two => -par.pivotThreshold
  (Selection.least bound (fun _ => true) (t.grid.get t.objectiveRow) t.columns.others).choice

/-- In the second phase a row whose basic variable is still artificial is treated apart. -/
def isResidual (t : Tableau α) (r : Nat) : Bool := t.phase = .two && t.isArtificial r

/-- The ratio of a row in the test for the leaving variable. A negligible entry gives no ratio. In a
residual row the ratio is tiny if the right-hand side is negligible, whatever the sign of the entry,
so that the artificial variable leaves. Tiny negative right-hand sides are taken as positive. -/
def ratio (par : Params α) (t : Tableau α) (col r : Nat) : α :=
  let denom := t.grid.get r col
  let numer := Scalar.abs (t.rhs r)
  if par.problem.isSmall numer denom then Scalar.maxValue
  else if t.isResidual r then
    if par.problem.isSmall denom numer then Scalar.epsilon else Scalar.maxValue
  else numer / denom

/-- The row may leave the basis when `col` enters it. -/
def admitsRow (par : Params α) (t : Tableau α) (col r : Nat) : Bool :=
  (t.isResidual r || 0 < t.grid.get r col) && 0 ≤ t.ratio par col r

/-- The row to leave the basis: the first one of the least ratio. -/
def leavingRow (par : Params α) (t : Tableau α) (col : Nat) : Option Nat :=
  (Selection.least Scalar.maxValue (t.admitsRow par col) (t.ratio par col) (List.range t.m)).choice

/-- The row to leave the basis, refused if there are rows and `col` is not a column of the
tableau. -/
def leavingRow? (par : Params α) (t : Tableau α) (col : Nat) : Checked (Option Nat) :=
  guarded (t.m = 0 ∨ col < t.n + t.m + 1) .outOfRange (t.leavingRow par col)

/-! ## Pivoting -/

/-- The entry of the pivot row after the pivot. -/
def pivotRowEntry (g : Mat α) (row col j : Nat) : α :=
  if j = col then 1 else 1 / g.get row col * g.get row j

/-- The entries after the pivot. A row whose entry in the pivot column is zero stays as it is. -/
def pivotEntry (g : Mat α) (row col r j : Nat) : α :=
  if r = row then pivotRowEntry g row col j
  else if g.get r col == 0 then g.get r j
  else if j = col then 0
  else g.get r j - g.get r col * pivotRowEntry g row col j

/-- Makes the variable of the column `col` basic in the row `row`. -/
def pivot (t : Tableau α) (row col : Nat) : Tableau α :=
  let leaving := t.basis.getD row (-1)
  let columns := if 0 ≤ leaving then t.columns.erase leaving.toNat else t.columns
  { t with
    grid := Mat.ofFn t.grid.shape (pivotEntry t.grid row col)
    basis := t.basis.setIfInBounds row col
    columns := columns.insert col }

/-- Pivots on a row and a column of the program. -/
def pivot? (t : Tableau α) (row col : Nat) : Checked (Tableau α) :=
  guarded (row < t.m ∧ col < t.n) .outOfRange (t.pivot row col)

/-! ## What a pivot keeps -/

@[simp] theorem n_pivot (t : Tableau α) (row col : Nat) : (t.pivot row col).n = t.n := rfl

@[simp] theorem m_pivot (t : Tableau α) (row col : Nat) : (t.pivot row col).m = t.m := rfl

@[simp] theorem shape_grid_pivot (t : Tableau α) (row col : Nat) :
    (t.pivot row col).grid.shape = t.grid.shape := rfl

@[simp] theorem size_basis_pivot (t : Tableau α) (row col : Nat) :
    (t.pivot row col).basis.size = t.basis.size := by simp [pivot]

/-- A pivot keeps the number of columns that can be basic. -/
@[simp] theorem count_columns_pivot (t : Tableau α) (row col : Nat) :
    (t.pivot row col).columns.count = t.columns.count := by
  unfold pivot
  dsimp only
  split <;> simp

end Tableau

end QuadProg
