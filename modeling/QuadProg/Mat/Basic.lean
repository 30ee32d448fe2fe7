import QuadProg.Mat.Shape
import QuadProg.Vec

/-!
# Matrices

A matrix is a shape together with as many stored entries as the shape asks for. It is read by
position: `Mat.get` gives the entry at a row and a column and is zero outside of the matrix, so the
way of storing is invisible to a reader.

Matrices are built from a function of the position (`Mat.ofFn`) or filled from a list. A list may be
shorter or longer than the matrix; entries that it does not reach keep their value. In a packed
matrix two positions of the list share a cell and the later one wins.

`get_ofFn` says what a matrix built from a function holds, `get_set` what a write changes.
-/

namespace QuadProg

/-- A matrix of scalars in one of the storage schemes of `Shape`. -/
structure Mat (α : Type) where
  /-- The storage scheme and the size. -/
  shape : Shape
  /-- The stored entries in the order of their cells. -/
  data : Array α
  /-- There is one stored entry for each cell. -/
  size_data : data.size = shape.length

namespace Mat

variable {α : Type}

/-- The number of rows. -/
def rows (a : Mat α) : Nat := a.shape.rows

/-- The number of columns. -/
def cols (a : Mat α) : Nat := a.shape.cols

/-- The size as rows and columns. -/
def size (a : Mat α) : Nat × Nat := a.shape.size

/-- The matrix with the given storage, refused if the length does not fit the shape. -/
def ofArray? (shape : Shape) (data : Array α) : Checked (Mat α) :=
  if h : data.size = shape.length then .ok ⟨shape, data, h⟩ else .error .sizeMismatch

/-- The matrix whose only column is `x`. -/
def ofVec (x : Vec α) : Mat α := ⟨.general x.size 1, x, by simp [Shape.length]⟩

/-- The values of `f` at the stored positions, in the order of their cells. In full storage the cell
`i` belongs to the row `i % rows` and the column `i / rows`. -/
def cells (f : Nat → Nat → α) : Shape → Array α
  | .general rows cols => Array.ofFn fun i : Fin (rows * cols) => f (i % rows) (i / rows)
  | .packed n => ((Shape.packed n).positions.map fun p => f p.1 p.2).toArray

@[simp] theorem size_cells (f : Nat → Nat → α) (shape : Shape) :
    (cells f shape).size = shape.length := by
  cases shape <;> simp [cells, Shape.length]

/-- The matrix that holds `f r c` at row `r` and column `c`. For a packed shape `f` is used on the
upper triangle only. -/
def ofFn (shape : Shape) (f : Nat → Nat → α) : Mat α := ⟨shape, cells f shape, size_cells f shape⟩

/-- The matrix with the stored entry of one cell replaced, refused if there is no such cell. -/
def setCell? (a : Mat α) (i : Nat) (v : α) : Checked (Mat α) :=
  guarded (i < a.data.size) .outOfRange
    { a with data := a.data.setIfInBounds i v, size_data := by simp [a.size_data] }

/-- The matrix with the entry at a position replaced, unchanged if the position lies outside. -/
def set (a : Mat α) (r c : Nat) (v : α) : Mat α :=
  if a.shape.Contains r c then
    { a with data := a.data.setIfInBounds (a.shape.index r c) v, size_data := by simp [a.size_data] }
  else a

/-- The matrix with the entry at a position replaced, refused if the position lies outside. -/
def set? (a : Mat α) (r c : Nat) (v : α) : Checked (Mat α) :=
  guarded (a.shape.Contains r c) .outOfRange (a.set r c v)

/-- Writes the values at the positions in turn, as far as both lists go. -/
def fill (a : Mat α) (positions : List (Nat × Nat)) (values : List α) : Mat α :=
  (positions.zip values).foldl (fun b pv => b.set pv.1.1 pv.1.2 pv.2) a

/-- Fills the matrix row by row from a list. -/
def fillByRows (a : Mat α) (values : List α) : Mat α := a.fill a.shape.byRows values

/-- Fills the matrix column by column from a list. -/
def fillByColumns (a : Mat α) (values : List α) : Mat α := a.fill a.shape.byColumns values

@[simp] theorem shape_ofFn (shape : Shape) (f : Nat → Nat → α) : (ofFn shape f).shape = shape := rfl

@[simp] theorem shape_set (a : Mat α) (r c : Nat) (v : α) : (a.set r c v).shape = a.shape := by
  unfold set; split <;> rfl

variable [Scalar α]

/-- The zero matrix. -/
def zeros (shape : Shape) : Mat α := ⟨shape, Array.replicate shape.length 0, by simp⟩

/-- The entry at a row and a column, zero outside of the matrix. -/
def get (a : Mat α) (r c : Nat) : α :=
  if a.shape.Contains r c then a.data.getD (a.shape.index r c) 0 else 0

/-- The entry at a row and a column, refused outside of the matrix. -/
def get? (a : Mat α) (r c : Nat) : Checked α :=
  guarded (a.shape.Contains r c) .outOfRange (a.get r c)

/-- The identity matrix of size `n`, in full storage. -/
def identity (n : Nat) : Mat α := ofFn (.general n n) fun r c => if r = c then 1 else 0

/-- The column at `c`. -/
def column (a : Mat α) (c : Nat) : Vec α := Array.ofFn fun r : Fin a.rows => a.get r c

/-- The column at `c` of a matrix in full storage. -/
def column? (a : Mat α) (c : Nat) : Checked (Vec α) := do
  require (a.shape.isPacked = false) .packedStorage
  guarded (c < a.cols) .outOfRange (a.column c)

/-- The matrix with the row at `r` multiplied by `s` from the left. -/
def scaleRow (a : Mat α) (r : Nat) (s : α) : Mat α :=
  ofFn a.shape fun i c => if i = r then s * a.get i c else a.get i c

/-- Scales a row of a matrix in full storage. In a matrix without columns every row exists. -/
def scaleRow? (a : Mat α) (r : Nat) (s : α) : Checked (Mat α) := do
  require (a.shape.isPacked = false) .packedStorage
  guarded (r < a.rows ∨ a.cols = 0) .outOfRange (a.scaleRow r s)

/-- The largest magnitude of a stored entry, at least zero. -/
def maxAbs (a : Mat α) : α := a.data.foldl (fun m v => Scalar.max m (Scalar.abs v)) 0

/-- All stored entries are zero. -/
def isZero (a : Mat α) : Bool := a.data.all (· == 0)

/-! ## Reading what was written -/

@[simp] theorem shape_zeros (shape : Shape) : (zeros shape : Mat α).shape = shape := rfl

@[simp] theorem shape_scaleRow (a : Mat α) (r : Nat) (s : α) : (a.scaleRow r s).shape = a.shape := rfl

@[simp] theorem size_column (a : Mat α) (c : Nat) : (a.column c).size = a.rows := by simp [column]

/-- The matrix reads zero outside of its positions. -/
theorem get_of_not_contains {a : Mat α} {r c : Nat} (h : ¬ a.shape.Contains r c) :
    a.get r c = 0 := if_neg h

/-- Every entry of the zero matrix is zero. -/
@[simp] theorem get_zeros (shape : Shape) (r c : Nat) : (zeros shape : Mat α).get r c = 0 := by
  by_cases h : shape.Contains r c
  · have := Shape.index_lt_length h
    simp [get, zeros, h, Array.getD, this]
  · exact get_of_not_contains h

/-- A packed matrix is symmetric. -/
theorem get_comm_of_packed {a : Mat α} {n : Nat} (h : a.shape = .packed n) (r c : Nat) :
    a.get r c = a.get c r := by
  by_cases hc : r < n ∧ c < n
  · simp [get, Shape.Contains, h, Shape.rows, Shape.cols, hc, Shape.index_packed_comm n r c]
  · have h₁ : ¬ (Shape.packed n).Contains r c := hc
    have h₂ : ¬ (Shape.packed n).Contains c r := fun hh => hc ⟨hh.2, hh.1⟩
    simp [get, h, h₁, h₂]

/-- A full matrix built from a function holds its values. -/
theorem get_ofFn {nr nc r c : Nat} (f : Nat → Nat → α) (hr : r < nr) (hc : c < nc) :
    (ofFn (.general nr nc) f).get r c = f r c := by
  have hpos : 0 < nr := by omega
  have hc' : (Shape.general nr nc).Contains r c := ⟨hr, hc⟩
  have hlt : c * nr + r < nr * nc := Shape.index_lt_length hc'
  have hrow : (c * nr + r) % nr = r := by
    rw [Nat.add_comm, Nat.add_mul_mod_self_right, Nat.mod_eq_of_lt hr]
  have hcol : (c * nr + r) / nr = c := by
    rw [Nat.add_comm, Nat.add_mul_div_right r c hpos, Nat.div_eq_of_lt hr, Nat.zero_add]
  simp [get, ofFn, cells, Shape.index, hc', Array.getD, hlt, hrow, hcol]

theorem get_ofFn_of_shape {shape : Shape} {nr nc r c : Nat} (f : Nat → Nat → α)
    (h : shape = .general nr nc) (hr : r < nr) (hc : c < nc) : (ofFn shape f).get r c = f r c := by
  subst h
  exact get_ofFn f hr hc

/-- The entry of a full matrix built from a function, at any position. -/
theorem get_ofFn_eq_ite (nr nc r c : Nat) (f : Nat → Nat → α) :
    (ofFn (.general nr nc) f).get r c = if r < nr ∧ c < nc then f r c else 0 := by
  by_cases h : r < nr ∧ c < nc
  · rw [if_pos h, get_ofFn f h.1 h.2]
  · rw [if_neg h]
    exact get_of_not_contains h

/-- A write is read back at its position. -/
theorem get_set_self {a : Mat α} {r c : Nat} {v : α} (h : a.shape.Contains r c) :
    (a.set r c v).get r c = v := by
  have hlt : a.shape.index r c < a.data.size := a.size_data ▸ Shape.index_lt_length h
  simp [get, set, h, Array.getD, hlt]

/-- A write changes no other cell. -/
theorem get_set_of_index_ne {a : Mat α} {r c r' c' : Nat} {v : α}
    (h : a.shape.index r c ≠ a.shape.index r' c') : (a.set r c v).get r' c' = a.get r' c' := by
  by_cases hc : a.shape.Contains r c
  · by_cases hc' : a.shape.Contains r' c'
    · have hlt' : a.shape.index r' c' < a.data.size := a.size_data ▸ Shape.index_lt_length hc'
      simp [get, set, hc, hc', Array.getD, hlt', h]
    · rw [get_of_not_contains (by simpa using hc'), get_of_not_contains hc']
  · simp [set, hc]

end Mat

end QuadProg
