import QuadProg.Mat.Basic

/-!
# Rearranging matrices

Full storage, transposition, selection of rows and concatenation of blocks. Each result is a matrix
in full storage whose entries are entries of the operands, so none of these operations computes
anything. `get_toGeneral` and its neighbours say which entry is found where.
-/

namespace QuadProg

namespace Mat

variable {α : Type} [Scalar α]

/-- The same matrix in full storage. -/
def toGeneral (a : Mat α) : Mat α :=
  match a.shape with
  | .general _ _ => a
  | .packed n => ofFn (.general n n) a.get

/-- The transposed matrix. -/
def transpose (a : Mat α) : Mat α := ofFn (.general a.cols a.rows) fun r c => a.get c r

/-- The listed rows, in the order of the list. -/
def select (a : Mat α) (idx : List Nat) : Mat α :=
  let chosen := idx.toArray
  ofFn (.general idx.length a.cols) fun r c => a.get (chosen.getD r 0) c

/-- The listed rows. In a matrix without columns every row exists. -/
def select? (a : Mat α) (idx : List Nat) : Checked (Mat α) :=
  guarded (a.cols = 0 ∨ ∀ i ∈ idx, i < a.rows) .outOfRange (a.select idx)

/-- The rows of `a` followed by those of `b`. -/
def above (a b : Mat α) : Mat α :=
  ofFn (.general (a.rows + b.rows) a.cols) fun r c =>
    if r < a.rows then a.get r c else b.get (r - a.rows) c

/-- The rows of `a` followed by those of `b`, which has as many columns. -/
def above? (a b : Mat α) : Checked (Mat α) :=
  guarded (a.cols = b.cols) .sizeMismatch (a.above b)

/-- The columns of `a` followed by those of `b`. -/
def beside (a b : Mat α) : Mat α :=
  ofFn (.general a.rows (a.cols + b.cols)) fun r c =>
    if c < a.cols then a.get r c else b.get r (c - a.cols)

/-- The columns of `a` followed by those of `b`, which has as many rows. -/
def beside? (a b : Mat α) : Checked (Mat α) :=
  guarded (a.rows = b.rows) .sizeMismatch (a.beside b)

/-- The matrix with the rows at `i` and `j` exchanged. -/
def swapRows (a : Mat α) (i j : Nat) : Mat α :=
  ofFn a.shape fun r c => a.get (if r = i then j else if r = j then i else r) c

/-! ## Entries -/

@[simp] theorem rows_toGeneral (a : Mat α) : a.toGeneral.rows = a.rows := by
  unfold toGeneral
  split
  · rfl
  · next n h => simp [rows, h, Shape.rows]

@[simp] theorem cols_toGeneral (a : Mat α) : a.toGeneral.cols = a.cols := by
  unfold toGeneral
  split
  · rfl
  · next n h => simp [cols, h, Shape.cols]

theorem shape_toGeneral (a : Mat α) : a.toGeneral.shape = .general a.rows a.cols := by
  unfold toGeneral
  split
  · next h => simp [rows, cols, h, Shape.rows, Shape.cols]
  · next n h => simp [rows, cols, h, Shape.rows, Shape.cols]

/-- Full storage holds the same entries. -/
@[simp] theorem get_toGeneral (a : Mat α) (r c : Nat) : a.toGeneral.get r c = a.get r c := by
  unfold toGeneral
  split
  · rfl
  · next n h =>
    by_cases hc : r < n ∧ c < n
    · exact get_ofFn _ hc.1 hc.2
    · have h₁ : ¬ (Shape.general n n).Contains r c := hc
      have h₂ : ¬ a.shape.Contains r c := by rw [h]; exact hc
      rw [get_of_not_contains h₁, get_of_not_contains h₂]

/-- A transposed matrix has its rows and columns exchanged. -/
@[simp] theorem get_transpose (a : Mat α) (r c : Nat) : a.transpose.get r c = a.get c r := by
  by_cases hc : r < a.cols ∧ c < a.rows
  · exact get_ofFn _ hc.1 hc.2
  · have h₁ : ¬ (Shape.general a.cols a.rows).Contains r c := hc
    have h₂ : ¬ a.shape.Contains c r := fun hh => hc ⟨hh.2, hh.1⟩
    rw [get_of_not_contains (by simpa [transpose] using h₁), get_of_not_contains h₂]

theorem get_select (a : Mat α) (idx : List Nat) {r c : Nat} (hr : r < idx.length)
    (hc : c < a.cols) : (a.select idx).get r c = a.get (idx.getD r 0) c := by
  refine (get_ofFn _ hr hc).trans ?_
  simp [Array.getD, hr]

/-- The first rows of stacked matrices are those of the upper one. -/
theorem get_above_upper (a b : Mat α) {r c : Nat} (hr : r < a.rows) (hc : c < a.cols) :
    (a.above b).get r c = a.get r c := by
  refine (get_ofFn _ (by omega) hc).trans ?_
  rw [if_pos hr]

/-- The last rows of stacked matrices are those of the lower one. -/
theorem get_above_lower (a b : Mat α) {r c : Nat} (hr : r < b.rows) (hc : c < a.cols) :
    (a.above b).get (a.rows + r) c = b.get r c := by
  refine (get_ofFn _ (by omega) hc).trans ?_
  rw [if_neg (by omega), Nat.add_sub_cancel_left]

/-- The first columns of matrices side by side are those of the left one. -/
theorem get_beside_left (a b : Mat α) {r c : Nat} (hr : r < a.rows) (hc : c < a.cols) :
    (a.beside b).get r c = a.get r c := by
  refine (get_ofFn _ hr (by omega)).trans ?_
  rw [if_pos hc]

/-- The last columns of matrices side by side are those of the right one. -/
theorem get_beside_right (a b : Mat α) {r c : Nat} (hr : r < a.rows) (hc : c < b.cols) :
    (a.beside b).get r (a.cols + c) = b.get r c := by
  refine (get_ofFn _ hr (by omega)).trans ?_
  rw [if_neg (by omega), Nat.add_sub_cancel_left]

/-! ## Columns -/

theorem entry_column {a : Mat α} {r c : Nat} (hr : r < a.rows) :
    (a.column c).entry r = a.get r c := by
  simp [column, Vec.entry, Array.getD, hr]

omit [Scalar α] in
theorem size_data_of_cols {a : Mat α} (h : a.cols = 1) : a.data.size = a.rows := by
  rw [a.size_data]
  unfold cols at h
  unfold rows
  cases hs : a.shape with
  | general nr nc =>
    rw [hs] at h
    simp only [Shape.cols] at h
    simp [Shape.length, Shape.rows, h]
  | packed n =>
    rw [hs] at h
    simp only [Shape.cols] at h
    simp [Shape.length, Shape.rows, h, Shape.triangle]

/-- The storage of a matrix with one column is that column. -/
theorem entry_data {a : Mat α} (h : a.cols = 1) {r : Nat} (hr : r < a.rows) :
    Vec.entry a.data r = a.get r 0 := by
  have hc : a.shape.Contains r 0 := ⟨hr, by rw [show a.shape.cols = 1 from h]; omega⟩
  have hindex : a.shape.index r 0 = r := by
    unfold cols at h
    unfold rows at hr
    cases hs : a.shape with
    | general nr nc => simp [Shape.index]
    | packed n =>
      rw [hs] at h hr
      simp only [Shape.cols, Shape.rows] at h hr
      obtain rfl : r = 0 := by omega
      simp [Shape.index, Shape.triangle]
  rw [get, if_pos hc, hindex]
  rfl

end Mat

end QuadProg
