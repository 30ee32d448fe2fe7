import QuadProg.Fault
import QuadProg.Scalar

/-!
# Vectors

A vector is an array of scalars. Reading outside of it gives zero, so that sums over its entries
need no bounds; the checked functions compare lengths first.
-/

namespace QuadProg

/-- A vector of scalars. -/
abbrev Vec (α : Type) := Array α

namespace Vec

variable {α : Type} [Scalar α]

/-- The zero vector of length `n`. -/
def zeros (n : Nat) : Vec α := Array.replicate n 0

/-- The entry at `i`, zero outside of the vector. -/
def entry (x : Vec α) (i : Nat) : α := x.getD i 0

/-- The entry at `i`, refused outside of the vector. -/
def entry? (x : Vec α) (i : Nat) : Checked α :=
  guarded (i < x.size) .outOfRange (x.entry i)

/-- The vector with its entry at `i` replaced, refused outside of the vector. -/
def set? (x : Vec α) (i : Nat) (v : α) : Checked (Vec α) :=
  guarded (i < x.size) .outOfRange (x.setIfInBounds i v)

/-- The inner product, accumulated from zero in ascending order. -/
def dot (x y : Vec α) : α := Scalar.sumTo (fun k => x.entry k * y.entry k) x.size

/-- The inner product of two vectors of one length. -/
def dot? (x y : Vec α) : Checked α := guarded (x.size = y.size) .sizeMismatch (x.dot y)

/-- The Euclidean norm. -/
def norm (x : Vec α) : α := Scalar.sqrt (x.dot x)

/-- The vector `a x`. -/
def scale (a : α) (x : Vec α) : Vec α := x.map (a * ·)

/-- The vector `y + a x`. -/
def addScaled (a : α) (x y : Vec α) : Vec α := y.mapIdx fun i v => v + a * x.entry i

/-- The vector `y + a x` for two vectors of one length. -/
def addScaled? (a : α) (x y : Vec α) : Checked (Vec α) :=
  guarded (x.size = y.size) .sizeMismatch (addScaled a x y)

/-- The content of `x`, written over a vector `y` of the same length. -/
def copyTo? (x y : Vec α) : Checked (Vec α) := guarded (x.size = y.size) .sizeMismatch x

@[simp] theorem size_zeros (n : Nat) : (zeros n : Vec α).size = n := by simp [zeros]

@[simp] theorem size_scale (a : α) (x : Vec α) : (scale a x).size = x.size := by simp [scale]

@[simp] theorem size_addScaled (a : α) (x y : Vec α) : (addScaled a x y).size = y.size := by
  simp [addScaled]

/-- Every entry of the zero vector is zero. -/
@[simp] theorem entry_zeros (n i : Nat) : (zeros n : Vec α).entry i = 0 := by
  by_cases h : i < n <;> simp [zeros, entry, Array.getD, h]

/-- A write is read back at its place and changes no other entry. -/
theorem entry_setIfInBounds (x : Vec α) (i j : Nat) (v : α) :
    Vec.entry (x.setIfInBounds i v) j = if i = j ∧ j < x.size then v else x.entry j := by
  by_cases hj : j < x.size
  · by_cases h : i = j <;> simp [entry, Array.getD, hj, h]
  · simp [entry, Array.getD, hj]

theorem entry_push (x : Vec α) (v : α) (i : Nat) :
    Vec.entry (x.push v) i = if i = x.size then v else x.entry i := by
  unfold entry Array.getD
  rcases Nat.lt_trichotomy i x.size with h | h | h
  · have hne : i ≠ x.size := by omega
    simp [h, hne, Nat.lt_succ_of_lt h, Array.getElem_push]
  · subst h
    simp
  · have hne : i ≠ x.size := by omega
    have hge : ¬ i < x.size := by omega
    have hge' : ¬ i < x.size + 1 := by omega
    simp [hne, hge, hge']

theorem entry_toArray (l : List α) (i : Nat) : Vec.entry l.toArray i = l.getD i 0 := by
  by_cases h : i < l.length <;> simp [entry, Array.getD, h]

/-- The entry of `y + a x` inside of its range. -/
theorem entry_addScaled {a : α} {x y : Vec α} {i : Nat} (h : i < y.size) :
    (addScaled a x y).entry i = y.entry i + a * x.entry i := by
  simp [addScaled, entry, Array.getD, h]

end Vec

end QuadProg
