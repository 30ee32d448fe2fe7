import QuadProg.Factor.Triangular

/-!
# Cholesky factorisation

A symmetric positive definite matrix is the product of a lower triangular matrix with positive
diagonal and its transpose. The factor is computed column by column in the lower triangle of a
square matrix in full storage; the strict upper triangle is neither read nor written. A column whose
diagonal does not exceed the threshold ends the computation, and the columns before it stay written.

The threshold is relative to the largest diagonal entry, but at least to one.
-/

namespace QuadProg

namespace Cholesky

variable {α : Type} [Scalar α]

/-- A square matrix on the way to its factor. -/
structure Elimination (α : Type) where
  /-- Every column had a diagonal above the threshold. -/
  complete : Bool
  /-- The matrix, as far as it was written. -/
  matrix : Mat α

/-- The entry at `(i, j)` less the part that the columns before `j` of the factor account for. -/
def remainder (a : Mat α) (i j : Nat) : α :=
  Scalar.diffTo (a.get i j) (fun k => a.get i k * a.get j k) j

/-- Writes the column at `j` of the factor, whose diagonal entry is `d`. -/
def writeColumn (a : Mat α) (j : Nat) (d : α) : Mat α :=
  Mat.ofFn a.shape fun r c =>
    if c = j then
      if r = j then d else if j < r then remainder a r j / d else a.get r c
    else a.get r c

/-- Computes the listed columns in turn. -/
def columns (threshold : α) : List Nat → Mat α → Elimination α
  | [], a => ⟨true, a⟩
  | j :: rest, a =>
    let d := remainder a j j
    if threshold < d then columns threshold rest (writeColumn a j (Scalar.sqrt d))
    else ⟨false, a⟩

/-- The largest magnitude on the diagonal, at least one. -/
def diagonalScale (a : Mat α) : α :=
  (List.range a.rows).foldl (fun m i => Scalar.max m (Scalar.abs (a.get i i))) 1

/-- The factorisation of a square matrix in full storage. -/
def decompose (a : Mat α) (relative : α) : Elimination α :=
  columns (relative * diagonalScale a) (List.range a.rows) a

/-- The solution of `L Lᵀ x = b`, where `L` is the lower triangle of the matrix. -/
def substitute (l : Mat α) (b : Vec α) : Vec α :=
  let y := Triangular.forward l.get (fun i s => s / l.get i i) b l.rows
  (Triangular.backward (fun i k => l.get k i) (fun i s => s / l.get i i) y l.rows []).toArray

end Cholesky

/-- A place for the Cholesky factor of the matrix given last. -/
structure Cholesky (α : Type) where
  /-- The relative threshold of the diagonal. -/
  threshold : α
  /-- The factor, if the last matrix had one. -/
  factor : Option (Mat α)

namespace Cholesky

variable {α : Type} [Scalar α]

/-- No matrix has been given yet. -/
def init (threshold : α) : Cholesky α := ⟨threshold, none⟩

/-- Systems can be solved. -/
def isSolvable (f : Cholesky α) : Bool := f.factor.isSome

/-- Factorises a square matrix. -/
def compute (f : Cholesky α) (a : Mat α) : Cholesky α :=
  let e := decompose a.toGeneral f.threshold
  { f with factor := if e.complete then some e.matrix else none }

/-- Factorises a matrix, refused unless it is square. -/
def compute? (f : Cholesky α) (a : Mat α) : Checked (Cholesky α) :=
  guarded (a.rows = a.cols) .sizeMismatch (f.compute a)

/-- The factor of the matrix given last. -/
def factor? (f : Cholesky α) : Checked (Mat α) :=
  match f.factor with
  | some l => .ok l
  | none => .error .notFactored

/-- Solves for one right-hand side. -/
def solveVec? (f : Cholesky α) (b : Vec α) : Checked (Vec α) := do
  let l ← f.factor?
  guarded (b.size = l.rows) .sizeMismatch (substitute l b)

/-- Solves for every column of a matrix. -/
def solve? (f : Cholesky α) (b : Mat α) : Checked (Mat α) := do
  let l ← f.factor?
  guarded (b.rows = l.rows) .sizeMismatch (b.mapColumns (substitute l))

@[simp] theorem size_substitute (l : Mat α) (b : Vec α) : (substitute l b).size = l.rows := by
  simp [substitute]

end Cholesky

end QuadProg
