import QuadProg.Mat.Product

/-!
# Matrices in memory

The solvers make matrices whose sizes grow with the product of the numbers of rows and columns, and
constraints without columns may have any number of rows. So they ask for room first, and so do the
operations below, which make a new matrix or vector from sizes alone or one that may be larger than
its operands: each one asks for room for its result before anything is computed, and where there is
room it is the operation of the same name.
-/

namespace QuadProg

namespace Memory

variable {α : Type} [Scalar α]

/-- There is room for a matrix of the given shape. Numbers without a width are not kept in the
memory of a machine. -/
def Holds (α : Type) [Scalar α] (s : Shape) : Prop :=
  0 < Scalar.width α → s.Fits (Scalar.width α)

instance (s : Shape) : Decidable (Holds α s) :=
  inferInstanceAs (Decidable (_ → _))

/-- There is room for a list of `count` indices of eight bytes each. While it is collected, such a
list may be given twice the room that it needs. -/
def HoldsList (α : Type) [Scalar α] (count : Nat) : Prop :=
  0 < Scalar.width α → 2 * (8 * count) ≤ arrayBound

instance (count : Nat) : Decidable (HoldsList α count) :=
  inferInstanceAs (Decidable (_ → _))

/-- Runs `operation`, whose result is a matrix of the given shape, where there is room for it. -/
def inRoom? (α : Type) [Scalar α] {β : Type} (s : Shape) (operation : Checked β) : Checked β := do
  require (Holds α s) .tooLarge
  operation

/-- The zero matrix. -/
def zeros? (s : Shape) : Checked (Mat α) :=
  guarded (Holds α s) .tooLarge (Mat.zeros s)

/-- The identity matrix of size `n`. -/
def identity? (n : Nat) : Checked (Mat α) :=
  guarded (Holds α (.general n n)) .tooLarge (Mat.identity n)

/-- The rows of `a` followed by those of `b`. -/
def above? (a b : Mat α) : Checked (Mat α) :=
  inRoom? α (.general (a.rows + b.rows) a.cols) (a.above? b)

/-- The columns of `a` followed by those of `b`. -/
def beside? (a b : Mat α) : Checked (Mat α) :=
  inRoom? α (.general a.rows (a.cols + b.cols)) (a.beside? b)

/-- The matrix `A B`. -/
def mul? (a b : Mat α) : Checked (Mat α) :=
  inRoom? α (.general a.rows b.cols) (a.mul? b)

/-- The vector `A x`. -/
def mulVec? (a : Mat α) (x : Vec α) : Checked (Vec α) := do
  require (Addressable (Scalar.width α) a.rows) .tooLarge
  a.mulVec? x

/-! ## Where there is room -/

variable {β : Type} {s : Shape} {operation : Checked β}

theorem inRoom?_eq (h : Holds α s) : inRoom? α s operation = operation := by
  rw [inRoom?, require_eq_ok h]
  rfl

/-- What was made in memory is what the operation makes. -/
theorem eq_of_inRoom? {b : β} (h : inRoom? α s operation = .ok b) : operation = .ok b := by
  obtain ⟨_, -, h⟩ := Checked.bind_eq_ok_iff.1 h
  exact h

end Memory

end QuadProg
