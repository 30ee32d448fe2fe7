import QuadProg.Factor.Cholesky
import QuadProg.Factor.LU
import QuadProg.Mat.Kernel

/-!
# Factors in one buffer

A factorisation takes place in an array that is used again for every matrix. A new matrix is written
over what the last one left, whatever its size, and a factorisation that fails leaves its array half
factored; only a flag says that there is nothing to solve with. Substitution writes the solution
over the right-hand side. Several right-hand sides stand one behind the other in one array, which is
cut into stretches of the size of the system. An array for an empty system is empty, so it is cut
into none.

`Answers` is what a place for factors shows of itself; it does not tell how the factors are kept.
-/

namespace QuadProg

namespace Triangular

variable {α : Type} [Scalar α]

/-- Forward substitution for the first unknowns, written over the right-hand side. -/
def forwardInPlace (coef : Nat → Nat → α) (finish : Nat → α → α) (b : Vec α) : Nat → Vec α
  | 0 => b
  | i + 1 =>
    let x := forwardInPlace coef finish b i
    let s := Scalar.diffTo (x.entry i) (fun k => coef i k * x.entry k) i
    x.setIfInBounds i (finish i s)

/-- Backward substitution for the unknowns before `i` of a system of size `n`, written over the
right-hand side. -/
def backwardInPlace (coef : Nat → Nat → α) (finish : Nat → α → α) (n : Nat) : Nat → Vec α → Vec α
  | 0, x => x
  | i + 1, x =>
    let term (t : Nat) : α := coef i (i + 1 + t) * x.entry (i + 1 + t)
    let s := Scalar.diffTo (x.entry i) term (n - (i + 1))
    backwardInPlace coef finish n i (x.setIfInBounds i (finish i s))

end Triangular

/-- A way of factorising. -/
inductive Method where
  /-- Into a lower triangular matrix and its transpose. -/
  | cholesky
  /-- Into a unit lower and an upper triangular matrix, with rows exchanged. -/
  | lu
deriving DecidableEq

namespace Method

variable {α : Type} [Scalar α]

/-- The places for the exchanged rows of a matrix with `n` rows. -/
def pivotCells : Method → Nat → Array Nat
  | cholesky, _ => #[]
  | lu, n => Array.replicate n 0

/-- The factorisation of a square matrix in full storage. Exchanged rows are written over `pivots`.
-/
def factorise : Method → Mat α → Array Nat → α → LU.Elimination α
  | cholesky, a, pivots, relative =>
    let e := Cholesky.decompose a relative
    ⟨e.complete, e.matrix, pivots⟩
  | lu, a, pivots, relative => LU.decompose a pivots relative

/-- Exchanged rows have to exist as soon as there is something to solve for. -/
def checkPivots : Method → Nat → Nat → Array Nat → Checked Unit
  | cholesky, _, _, _ => .ok ()
  | lu, n, count, pivots => do
    require (pivots.size = n) .sizeMismatch
    require (count = 0 ∨ ∀ p ∈ pivots, p < n) .outOfRange

/-- The solution for one right-hand side, written over it. -/
def substitute : Method → LU.Factors α → Vec α → Vec α
  | cholesky, f, b =>
    let l := f.matrix
    let byDiagonal (i : Nat) (s : α) : α := s / l.get i i
    let y := Triangular.forwardInPlace l.get byDiagonal b l.rows
    Triangular.backwardInPlace (fun i k => l.get k i) byDiagonal l.rows l.rows y
  | lu, f, b =>
    let a := f.matrix
    let y := Triangular.forwardInPlace a.get (fun _ s => s) (f.permute b) a.rows
    Triangular.backwardInPlace a.get (fun i s => s / a.get i i) a.rows a.rows y

end Method

/-- A place for the factors of the matrix given last, as it is kept in memory. -/
structure Buffer (α : Type) where
  /-- The way of factorising. -/
  method : Method
  /-- The relative threshold. -/
  threshold : α
  /-- The number of rows of the matrix given last. -/
  n : Nat
  /-- The matrix given last, as far as it was factored. -/
  cells : Array α
  /-- The exchanged rows, as far as they were written. -/
  pivots : Array Nat
  /-- The last factorisation was completed. -/
  solvable : Bool

namespace Buffer

variable {α : Type} [Scalar α]

/-- No matrix has been given yet. -/
def init (method : Method) (threshold : α) : Buffer α := ⟨method, threshold, 0, #[], #[], false⟩

/-- Factorises a matrix in the place of the last one, refused unless it is square. -/
def compute? (f : Buffer α) (a : Mat α) : Checked (Buffer α) := do
  require (a.rows = a.cols) .sizeMismatch
  let cells := a.toGeneral.data
  let g ← Mat.ofArray? (.general a.rows a.rows) cells
  let e := f.method.factorise g (f.method.pivotCells a.rows) f.threshold
  return { f with n := a.rows, cells := e.matrix.data, pivots := e.pivots, solvable := e.complete }

/-- Solves for `count` right-hand sides that stand one behind the other. The stretches that they are
cut into are of one cell at least. -/
def solveIn? (f : Buffer α) (count : Nat) (data : Vec α) : Checked (Vec α) := do
  let matrix ← Mat.ofArray? (.general f.n f.n) f.cells
  require (data.size = f.n * count) .sizeMismatch
  let width := max f.n 1
  let stretches := min count (Kernel.stretches width data.size)
  f.method.checkPivots f.n stretches f.pivots
  return Kernel.pieces (fun _ b => f.method.substitute ⟨matrix, f.pivots⟩ b) width stretches data

/-- Solves for every column of a matrix. -/
def solve? (f : Buffer α) (b : Mat α) : Checked (Mat α) := do
  require (f.solvable = true) .notFactored
  let x := b.toGeneral
  require (x.rows = f.n) .sizeMismatch
  let solved ← f.solveIn? x.cols x.data
  Mat.ofArray? x.shape solved

/-- Solves for one right-hand side. -/
def solveVec? (f : Buffer α) (b : Vec α) : Checked (Vec α) := do
  require (f.solvable = true) .notFactored
  require (b.size = f.n) .sizeMismatch
  f.solveIn? 1 b

end Buffer

/-- What a place for factors answers. -/
structure Answers (α : Type) where
  /-- Systems can be solved. -/
  isSolvable : Bool
  /-- Solves for every column of a matrix. -/
  solve? : Mat α → Checked (Mat α)
  /-- Solves for one right-hand side. -/
  solveVec? : Vec α → Checked (Vec α)

section Answers

variable {α : Type} [Scalar α]

/-- The answers of a place for a Cholesky factor. -/
def Cholesky.answers (f : Cholesky α) : Answers α := ⟨f.isSolvable, f.solve?, f.solveVec?⟩

/-- The answers of a place for LU factors. -/
def LU.answers (f : LU α) : Answers α := ⟨f.isSolvable, f.solve?, f.solveVec?⟩

/-- The answers of a buffer. -/
def Buffer.answers (f : Buffer α) : Answers α := ⟨f.solvable, f.solve?, f.solveVec?⟩

namespace Method

/-- The answers after the listed matrices have been given in turn. -/
def answers? (m : Method) (relative : α) (given : List (Mat α)) : Checked (Answers α) :=
  match m with
  | cholesky => (given.foldlM Cholesky.compute? (Cholesky.init relative)).map Cholesky.answers
  | lu => (given.foldlM LU.compute? (LU.init relative)).map LU.answers

/-- The answers of a buffer after the listed matrices have been given in turn. -/
def bufferAnswers? (m : Method) (relative : α) (given : List (Mat α)) : Checked (Answers α) :=
  (given.foldlM Buffer.compute? (Buffer.init m relative)).map Buffer.answers

end Method

end Answers

end QuadProg
