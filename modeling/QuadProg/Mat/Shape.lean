import QuadProg.Fault
import QuadProg.Memory

/-!
# Shapes of stored matrices

A matrix is stored either in full, column by column, or, if it is symmetric, packed: only the upper
triangle is kept, again column by column, and the positions `(r, c)` and `(c, r)` share a cell.

`Shape.index` gives the cell of a position and `Shape.positions` lists the stored positions in the
order of their cells. `index_lt_length` says that positions of the matrix have a cell.
-/

namespace QuadProg

/-- How a matrix is stored, and its size. -/
inductive Shape where
  /-- All entries, column by column. -/
  | general (rows cols : Nat)
  /-- The upper triangle of a symmetric `n × n` matrix, column by column. -/
  | packed (n : Nat)
deriving DecidableEq

namespace Shape

/-- The number of rows. -/
def rows : Shape → Nat
  | general rows _ => rows
  | packed n => n

/-- The number of columns. -/
def cols : Shape → Nat
  | general _ cols => cols
  | packed n => n

/-- The size as rows and columns. -/
def size (s : Shape) : Nat × Nat := (s.rows, s.cols)

/-- The number of cells in a triangle with `n` columns. -/
def triangle (n : Nat) : Nat := n * (n + 1) / 2

/-- The number of stored entries. -/
def length : Shape → Nat
  | general rows cols => rows * cols
  | packed n => triangle n

/-- The products that `length` computes on the way; each has to fit a machine word. -/
def products : Shape → List Nat
  | general rows cols => [rows * cols]
  | packed n => [n + 1, n * (n + 1)]

/-- The number of stored entries, refused if computing it leaves the range of a machine word. -/
def length? (s : Shape) : Checked Nat :=
  guarded (∀ p ∈ s.products, p < wordBound) .tooLarge s.length

/-- There is room for a matrix of this shape with entries of `width` bytes: its size and the length
of its storage are machine words, and the storage is an array. -/
def Fits (s : Shape) (width : Nat) : Prop :=
  (s.rows < wordBound ∧ s.cols < wordBound) ∧ (∀ p ∈ s.products, p < wordBound) ∧
    Addressable width s.length

instance (s : Shape) (width : Nat) : Decidable (s.Fits width) :=
  inferInstanceAs (Decidable (_ ∧ _ ∧ _))

/-- Only the upper triangle is stored. -/
def isPacked : Shape → Bool
  | general _ _ => false
  | packed _ => true

/-- The position lies inside of the matrix. -/
def Contains (s : Shape) (r c : Nat) : Prop := r < s.rows ∧ c < s.cols

instance (s : Shape) (r c : Nat) : Decidable (s.Contains r c) :=
  inferInstanceAs (Decidable (_ ∧ _))

/-- The cell of a position. -/
def index : Shape → Nat → Nat → Nat
  | general rows _, r, c => c * rows + r
  | packed _, r, c => if r ≤ c then triangle c + r else triangle r + c

/-- The values `f i j` for `i < outer` and `j < inner`, in ascending order of `i` and then of `j`.
An empty range of `j` ends the listing at once, however large the range of `i` is. -/
def listing {β : Type} (outer inner : Nat) (f : Nat → Nat → β) : List β :=
  if inner = 0 then [] else (List.range outer).flatMap fun i => (List.range inner).map (f i)

/-- The stored positions in the order of their cells. -/
def positions : Shape → List (Nat × Nat)
  | general rows cols => listing cols rows fun c r => (r, c)
  | packed n => (List.range n).flatMap fun c => (List.range (c + 1)).map fun r => (r, c)

/-- All positions of the matrix, row by row. -/
def byRows (s : Shape) : List (Nat × Nat) := listing s.rows s.cols fun r c => (r, c)

/-- All positions of the matrix, column by column. -/
def byColumns (s : Shape) : List (Nat × Nat) := listing s.cols s.rows fun c r => (r, c)

/-! ## Cells -/

theorem triangle_succ (n : Nat) : triangle (n + 1) = triangle n + (n + 1) := by
  have h : (n + 1) * (n + 1 + 1) = n * (n + 1) + 2 * (n + 1) := by
    rw [← Nat.add_mul, Nat.mul_comm]
  rw [triangle, triangle, h]
  omega

theorem triangle_mono {m n : Nat} (h : m ≤ n) : triangle m ≤ triangle n := by
  induction h with
  | refl => exact Nat.le_refl _
  | step _ ih => rw [triangle_succ]; omega

/-- Every position of the matrix has a cell. -/
theorem index_lt_length {s : Shape} {r c : Nat} (h : s.Contains r c) :
    s.index r c < s.length := by
  obtain ⟨hr, hc⟩ := h
  cases s with
  | general rows cols =>
    simp only [Shape.rows, Shape.cols] at hr hc
    simp only [index, length]
    calc c * rows + r < c * rows + rows := by omega
      _ = rows * (c + 1) := by rw [Nat.mul_succ, Nat.mul_comm]
      _ ≤ rows * cols := Nat.mul_le_mul_left rows hc
  | packed n =>
    simp only [Shape.rows, Shape.cols] at hr hc
    simp only [index, length]
    split
    · have := triangle_mono (Nat.succ_le_of_lt hc)
      rw [Nat.succ_eq_add_one, triangle_succ] at this
      omega
    · have := triangle_mono (Nat.succ_le_of_lt hr)
      rw [Nat.succ_eq_add_one, triangle_succ] at this
      omega

/-- A packed matrix keeps one cell for a position and the transposed one. -/
theorem index_packed_comm (n r c : Nat) : (packed n).index r c = (packed n).index c r := by
  simp only [index]
  by_cases h : r ≤ c <;> by_cases h' : c ≤ r
  · have : r = c := by omega
    subst this; rfl
  · simp [h, h']
  · simp [h, h']
  · omega

/-- A listing goes through the one range inside of the other. -/
theorem listing_eq_flatMap {β : Type} (outer inner : Nat) (f : Nat → Nat → β) :
    listing outer inner f =
      (List.range outer).flatMap fun i => (List.range inner).map (f i) := by
  unfold listing
  split
  · next h => simp [h]
  · rfl

/-- A further column of a full matrix is listed last. -/
theorem positions_general_succ (rows cols : Nat) :
    (general rows (cols + 1)).positions =
      (general rows cols).positions ++ (List.range rows).map fun r => (r, cols) := by
  simp [positions, listing_eq_flatMap, List.range_succ]

/-- A further column of a packed matrix is listed last. -/
theorem positions_packed_succ (n : Nat) :
    (packed (n + 1)).positions =
      (packed n).positions ++ (List.range (n + 1)).map fun r => (r, n) := by
  simp [positions, List.range_succ]

/-- There are as many stored positions as stored entries. -/
@[simp] theorem length_positions (s : Shape) : s.positions.length = s.length := by
  cases s with
  | general rows cols =>
    induction cols with
    | zero => simp [positions, listing_eq_flatMap, length]
    | succ n ih =>
      rw [positions_general_succ, List.length_append, ih, List.length_map, List.length_range]
      exact (Nat.mul_succ rows n).symm
  | packed n =>
    induction n with
    | zero => rfl
    | succ n ih =>
      rw [positions_packed_succ, List.length_append, ih, List.length_map, List.length_range]
      exact (triangle_succ n).symm

/-- A position inside of a full matrix is listed at its cell. -/
theorem getElem?_positions_general {rows cols r c : Nat} (hr : r < rows) (hc : c < cols) :
    (general rows cols).positions[(general rows cols).index r c]? = some (r, c) := by
  induction cols with
  | zero => omega
  | succ n ih =>
    have hlen : (general rows n).positions.length = n * rows := by
      rw [length_positions]
      exact Nat.mul_comm rows n
    rw [positions_general_succ]
    by_cases h : c < n
    · have hlt := index_lt_length (s := general rows n) (r := r) (c := c) ⟨hr, h⟩
      rw [List.getElem?_append_left (by rw [length_positions]; exact hlt)]
      exact ih h
    · have hcn : c = n := by omega
      subst hcn
      rw [List.getElem?_append_right (by rw [hlen]; simp [index])]
      simp [index, hlen, hr]

/-- A position in the upper triangle of a packed matrix is listed at its cell. -/
theorem getElem?_positions_packed {n r c : Nat} (hrc : r ≤ c) (hc : c < n) :
    (packed n).positions[(packed n).index r c]? = some (r, c) := by
  induction n with
  | zero => omega
  | succ n ih =>
    have hlen : (packed n).positions.length = triangle n := length_positions _
    rw [positions_packed_succ]
    by_cases h : c < n
    · have hlt := index_lt_length (s := packed n) (r := r) (c := c) ⟨by simp [rows]; omega, h⟩
      rw [List.getElem?_append_left (by rw [length_positions]; exact hlt)]
      exact ih h
    · have hcn : c = n := by omega
      subst hcn
      have hidx : (packed (c + 1)).index r c = triangle c + r := by simp [index, hrc]
      rw [hidx, List.getElem?_append_right (by rw [hlen]; omega), hlen]
      simp [show r < c + 1 by omega]

/-- Distinct stored positions have distinct cells: a cell determines its position. -/
theorem index_injective_general {rows cols r c r' c' : Nat} (hr : r < rows) (hc : c < cols)
    (hr' : r' < rows) (hc' : c' < cols)
    (h : (general rows cols).index r c = (general rows cols).index r' c') : r = r' ∧ c = c' := by
  have h₁ := getElem?_positions_general hr hc
  have h₂ := getElem?_positions_general hr' hc'
  rw [h, h₂] at h₁
  simpa [eq_comm] using h₁

end Shape

end QuadProg
