import QuadProg.Mat.Product

/-!
# Kernels

A product with a vector is computed from the stored entries. Each way of storing has its own formula
for the cell of a position, and a packed matrix is its own transpose. The kernels compute the
products of `Mat.transform` and `Mat.transformTranspose`, in the same order of the operations.

A product of matrices is computed column by column in one array: `overwrite` replaces a stretch of
it, `pieces` works on consecutive stretches of one width. A list fills a matrix line by line, and a
line takes from the list what it needs.
-/

namespace QuadProg

namespace Kernel

variable {α : Type} [Scalar α]

/-- The cell of a position of a matrix of `rows` rows in full storage, or of its transpose. -/
def fullCell (transposed : Bool) (rows r c : Nat) : Nat :=
  if transposed then r * rows + c else c * rows + r

/-- The cell of a position of a packed matrix. -/
def packedCell (r c : Nat) : Nat :=
  if r < c then Shape.triangle c + r else Shape.triangle r + c

/-- The vector `s A x + t y`, where `cell` finds the entries of `A`. -/
def loop (cell : Nat → Nat → Nat) (data : Array α) (s : α) (x : Vec α) (t : α) (y : Vec α) :
    Vec α :=
  y.mapIdx fun r v => s * Scalar.sumTo (fun c => data.getD (cell r c) 0 * x.entry c) x.size + t * v

/-- The product with a matrix or its transpose, by the kernel for its storage. -/
def transform (transposed : Bool) (a : Mat α) (s : α) (x : Vec α) (t : α) (y : Vec α) : Vec α :=
  match a.shape with
  | .general rows _ => loop (fullCell transposed rows) a.data s x t y
  | .packed _ => loop packedCell a.data s x t y

/-- The product with a matrix or its transpose for operands that fit. -/
def transform? (transposed : Bool) (a : Mat α) (s : α) (x : Vec α) (t : α) (y : Vec α) :
    Checked (Vec α) :=
  let size := if transposed then (a.cols, a.rows) else a.size
  guarded (x.size = size.2 ∧ y.size = size.1) .sizeMismatch (transform transposed a s x t y)

/-- The vector `A x`, computed over a vector of zeros. -/
def mulVec? (a : Mat α) (x : Vec α) : Checked (Vec α) :=
  transform? false a 1 x 0 (Vec.zeros a.rows)

/-! ## Stretches of an array -/

/-- The array with the values of `piece` written from the cell `start` on. -/
def overwrite (data : Array α) (start : Nat) (piece : Array α) : Array α :=
  data.extract 0 start ++ piece ++ data.extract (start + piece.size) data.size

/-- The stretch of `width` cells with the number `k`. At the end of the array it may be shorter. -/
def stretch (data : Array α) (width k : Nat) : Array α :=
  data.extract (k * width) ((k + 1) * width)

/-- Works on the first stretches of the given width in turn. The cells behind them stay. -/
def pieces (work : Nat → Array α → Array α) (width : Nat) : Nat → Array α → Array α
  | 0, data => data
  | k + 1, data =>
    let done := pieces work width k data
    overwrite done (k * width) (work k (stretch done width k))

/-- The number of stretches of the given width that cover an array. -/
def stretches (width size : Nat) : Nat := (size + width - 1) / width

/-- The matrix `A B`, one column after the other, for matrices that fit each other. Without rows
there is nothing to compute. -/
def mul? (a b : Mat α) : Checked (Mat α) := do
  require (a.cols = b.rows) .sizeMismatch
  let zeros : Mat α := Mat.zeros (.general a.rows b.cols)
  let right := b.toGeneral
  let column (c : Nat) : Vec α := stretch right.data right.rows c
  let filled :=
    if 0 < a.rows then
      pieces (fun c y => transform false a 1 (column c) 0 y) a.rows b.cols zeros.data
    else zeros.data
  Mat.ofArray? (.general a.rows b.cols) filled

/-! ## Filling -/

/-- Fills the positions of a line from a list and returns what is left of the list. The line ends
early with the list. -/
def fillLine : List (Nat × Nat) → List α → Mat α → Mat α × List α
  | [], values, a => (a, values)
  | _ :: _, [], a => (a, [])
  | p :: line, v :: values, a => fillLine line values (a.set p.1 p.2 v)

/-- Fills line after line from a list. -/
def fillLines : List (List (Nat × Nat)) → List α → Mat α → Mat α
  | [], _, a => a
  | line :: lines, values, a =>
    let (b, left) := fillLine line values a
    fillLines lines left b

/-- Fills the rows of a matrix in turn. -/
def fillByRows (a : Mat α) (values : List α) : Mat α :=
  fillLines ((List.range a.rows).map fun r => (List.range a.cols).map fun c => (r, c)) values a

/-- Fills the columns of a matrix in turn. -/
def fillByColumns (a : Mat α) (values : List α) : Mat α :=
  fillLines ((List.range a.cols).map fun c => (List.range a.rows).map fun r => (r, c)) values a

end Kernel

end QuadProg
