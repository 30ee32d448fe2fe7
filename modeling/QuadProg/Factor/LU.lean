import QuadProg.Factor.Triangular

/-!
# LU factorisation

A square matrix whose rows are suitably exchanged is the product of a unit lower and an upper
triangular matrix. In each column the entry of the largest magnitude on or below the diagonal
becomes the pivot, the first one of a tie; its row is exchanged with the row of the diagonal. A
pivot that does not exceed the threshold ends the computation, and the columns before it stay
written.

The threshold is relative to the largest magnitude in the matrix.
-/

namespace QuadProg

/-- A candidate for the pivot of a column. -/
structure Pivot (α : Type) where
  /-- The row of the candidate. -/
  row : Nat
  /-- The magnitude of its entry. -/
  magnitude : α

namespace Mat

variable {α : Type} [Scalar α]

/-- Prefers the row `i` if its entry in the column `c` is larger than that of the candidate. -/
def preferRow (a : Mat α) (c : Nat) (best : Pivot α) (i : Nat) : Pivot α :=
  let v := Scalar.abs (a.get i c)
  if best.magnitude < v then ⟨i, v⟩ else best

/-- The largest entry of the column `c` from the row `start` on. -/
def pivotFrom (a : Mat α) (start c : Nat) : Pivot α :=
  (List.range' (start + 1) (a.rows - start - 1)).foldl (a.preferRow c)
    ⟨start, Scalar.abs (a.get start c)⟩

end Mat

namespace LU

variable {α : Type} [Scalar α]

/-- A square matrix on the way to its factors. -/
structure Elimination (α : Type) where
  /-- Every column had a pivot. -/
  complete : Bool
  /-- The matrix, as far as it was written. -/
  matrix : Mat α
  /-- The row exchanged with each row, as far as it was written. -/
  pivots : Array Nat

/-- Eliminates the column `k` below the diagonal and keeps the multipliers in its place. -/
def eliminate (a : Mat α) (k : Nat) : Mat α :=
  Mat.ofFn a.shape fun i j =>
    if k < i then
      let l := a.get i k / a.get k k
      if j = k then l else if k < j then a.get i j - l * a.get k j else a.get i j
    else a.get i j

/-- Exchanges rows and eliminates in the listed columns in turn. -/
def columns (threshold : α) : List Nat → Mat α → Array Nat → Elimination α
  | [], a, pivots => ⟨true, a, pivots⟩
  | k :: rest, a, pivots =>
    let p := a.pivotFrom k k
    if threshold < p.magnitude then
      columns threshold rest (eliminate (a.swapRows k p.row) k) (pivots.setIfInBounds k p.row)
    else ⟨false, a, pivots⟩

/-- The factorisation of a square matrix in full storage. The exchanged rows are written over
`pivots`. -/
def decompose (a : Mat α) (pivots : Array Nat) (relative : α) : Elimination α :=
  columns (relative * a.maxAbs) (List.range a.rows) a pivots

/-- The two triangular factors in one matrix and the exchanged rows. -/
structure Factors (α : Type) where
  /-- The upper factor, and below its diagonal the lower one without its unit diagonal. -/
  matrix : Mat α
  /-- The row exchanged with each row. -/
  pivots : Array Nat

namespace Factors

/-- The right-hand side with its entries exchanged like the rows of the matrix. -/
def permute (f : Factors α) (b : Vec α) : Vec α :=
  (List.range f.matrix.rows).foldl (fun x k => x.swapIfInBounds k (f.pivots.getD k k)) b

/-- The solution for one right-hand side. -/
def solveVec (f : Factors α) (b : Vec α) : Vec α :=
  let n := f.matrix.rows
  let y := Triangular.forward f.matrix.get (fun _ s => s) (f.permute b) n
  (Triangular.backward f.matrix.get (fun i s => s / f.matrix.get i i) y n []).toArray

/-- The solutions for the columns of a matrix with as many rows. Exchanged rows have to exist as
soon as there is a column to solve for. -/
def solve? (f : Factors α) (b : Mat α) : Checked (Mat α) := do
  require (b.rows = f.matrix.rows ∧ f.pivots.size = f.matrix.rows) .sizeMismatch
  guarded (b.cols = 0 ∨ ∀ p ∈ f.pivots, p < f.matrix.rows) .outOfRange (b.mapColumns f.solveVec)

end Factors

end LU

/-- A place for the LU factors of the matrix given last. -/
structure LU (α : Type) where
  /-- The relative threshold of the pivots. -/
  threshold : α
  /-- The factors, if the last matrix had them. -/
  factors : Option (LU.Factors α)

namespace LU

variable {α : Type} [Scalar α]

/-- No matrix has been given yet. -/
def init (threshold : α) : LU α := ⟨threshold, none⟩

/-- Systems can be solved. -/
def isSolvable (f : LU α) : Bool := f.factors.isSome

/-- Factorises a square matrix. -/
def compute (f : LU α) (a : Mat α) : LU α :=
  let e := decompose a.toGeneral (Array.replicate a.rows 0) f.threshold
  { f with factors := if e.complete then some ⟨e.matrix, e.pivots⟩ else none }

/-- Factorises a matrix, refused unless it is square. -/
def compute? (f : LU α) (a : Mat α) : Checked (LU α) :=
  guarded (a.rows = a.cols) .sizeMismatch (f.compute a)

/-- The factors of the matrix given last. -/
def factors? (f : LU α) : Checked (Factors α) :=
  match f.factors with
  | some factors => .ok factors
  | none => .error .notFactored

/-- Solves for one right-hand side. -/
def solveVec? (f : LU α) (b : Vec α) : Checked (Vec α) := do
  let factors ← f.factors?
  guarded (b.size = factors.matrix.rows) .sizeMismatch (factors.solveVec b)

/-- Solves for every column of a matrix. -/
def solve? (f : LU α) (b : Mat α) : Checked (Mat α) := do
  let factors ← f.factors?
  guarded (b.rows = factors.matrix.rows) .sizeMismatch (b.mapColumns factors.solveVec)

@[simp] theorem Factors.size_solveVec (f : Factors α) (b : Vec α) :
    (f.solveVec b).size = f.matrix.rows := by
  simp [Factors.solveVec]

end LU

end QuadProg
