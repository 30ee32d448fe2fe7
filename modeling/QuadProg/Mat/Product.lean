import QuadProg.Mat.Block

/-!
# Products

Products of a matrix with vectors and matrices. Every entry of a product is a sum over one row of
the left operand, accumulated from zero in ascending order of the columns, then scaled and added to
what was there before. The two scalings are computed even if they are by one and by zero.
-/

namespace QuadProg

namespace Mat

variable {α : Type} [Scalar α]

/-- The inner product of the row at `r` with `x`. -/
def rowDot (a : Mat α) (r : Nat) (x : Vec α) : α :=
  Scalar.sumTo (fun c => a.get r c * x.entry c) a.cols

/-- The inner product of the column at `c` with `x`. -/
def columnDot (a : Mat α) (c : Nat) (x : Vec α) : α :=
  Scalar.sumTo (fun r => a.get r c * x.entry r) a.rows

/-- The vector `s A x + t y`. -/
def transform (a : Mat α) (s : α) (x : Vec α) (t : α) (y : Vec α) : Vec α :=
  y.mapIdx fun r v => s * a.rowDot r x + t * v

/-- The vector `s A x + t y` for operands that fit the matrix. -/
def transform? (a : Mat α) (s : α) (x : Vec α) (t : α) (y : Vec α) : Checked (Vec α) :=
  guarded (x.size = a.cols ∧ y.size = a.rows) .sizeMismatch (a.transform s x t y)

/-- The vector `s Aᵀ x + t y`. -/
def transformTranspose (a : Mat α) (s : α) (x : Vec α) (t : α) (y : Vec α) : Vec α :=
  y.mapIdx fun c v => s * a.columnDot c x + t * v

/-- The vector `s Aᵀ x + t y` for operands that fit the matrix. -/
def transformTranspose? (a : Mat α) (s : α) (x : Vec α) (t : α) (y : Vec α) : Checked (Vec α) :=
  guarded (x.size = a.rows ∧ y.size = a.cols) .sizeMismatch (a.transformTranspose s x t y)

/-- The vector `A x`. -/
def mulVec (a : Mat α) (x : Vec α) : Vec α := a.transform 1 x 0 (Vec.zeros a.rows)

/-- The vector `A x` for a vector that fits the matrix. -/
def mulVec? (a : Mat α) (x : Vec α) : Checked (Vec α) :=
  guarded (x.size = a.cols) .sizeMismatch (a.mulVec x)

/-- The matrix `A B`. -/
def mul (a b : Mat α) : Mat α :=
  ofFn (.general a.rows b.cols) fun r c =>
    1 * Scalar.sumTo (fun k => a.get r k * b.get k c) a.cols + 0 * 0

/-- The matrix `A B` for matrices that fit each other. -/
def mul? (a b : Mat α) : Checked (Mat α) := guarded (a.cols = b.rows) .sizeMismatch (a.mul b)

@[simp] theorem size_transform (a : Mat α) (s : α) (x : Vec α) (t : α) (y : Vec α) :
    (a.transform s x t y).size = y.size := by simp [transform]

@[simp] theorem size_transformTranspose (a : Mat α) (s : α) (x : Vec α) (t : α) (y : Vec α) :
    (a.transformTranspose s x t y).size = y.size := by simp [transformTranspose]

@[simp] theorem size_mulVec (a : Mat α) (x : Vec α) : (a.mulVec x).size = a.rows := by
  simp [mulVec]

theorem entry_transform {a : Mat α} {s t : α} {x y : Vec α} {r : Nat} (h : r < y.size) :
    (a.transform s x t y).entry r = s * a.rowDot r x + t * y.entry r := by
  simp [transform, Vec.entry, Array.getD, h]

theorem entry_transformTranspose {a : Mat α} {s t : α} {x y : Vec α} {c : Nat} (h : c < y.size) :
    (a.transformTranspose s x t y).entry c = s * a.columnDot c x + t * y.entry c := by
  simp [transformTranspose, Vec.entry, Array.getD, h]

/-- The entry of a matrix-vector product. -/
theorem entry_mulVec {a : Mat α} {x : Vec α} {r : Nat} (h : r < a.rows) :
    (a.mulVec x).entry r = 1 * a.rowDot r x + 0 * 0 := by
  simp [mulVec, transform, Vec.entry, Vec.zeros, Array.getD, h]

/-- The entry of a matrix product. -/
theorem get_mul {a b : Mat α} {r c : Nat} (hr : r < a.rows) (hc : c < b.cols) :
    (a.mul b).get r c = 1 * Scalar.sumTo (fun k => a.get r k * b.get k c) a.cols + 0 * 0 :=
  get_ofFn _ hr hc

end Mat

end QuadProg
