import QuadProg.Fault
import QuadProg.Memory

/-!
# Working sets

A working set splits the indices below a bound into members and others. It keeps its number of
members, so that counting takes no scan, and the index that joined last, for as long as it stays.

An index beyond the bound is in neither part; the checked operations refuse it.
-/

namespace QuadProg

/-- A set of indices below a bound that remembers which one joined last. -/
structure WorkingSet where
  /-- One flag for each index, set for the members. -/
  flags : Array Bool
  /-- The number of members. -/
  card : Nat
  /-- The index that joined last, if it is still a member. -/
  latest : Option Nat
deriving DecidableEq

namespace WorkingSet

/-- The set without members below the bound `count`. -/
def empty (count : Nat) : WorkingSet := ⟨Array.replicate count false, 0, none⟩

/-- The set without members below the bound `count`, refused if there are no flags for so many
indices. A flag takes one byte. -/
def empty? (count : Nat) : Checked WorkingSet :=
  guarded (Addressable 1 count) .tooLarge (empty count)

/-- The bound of the indices. -/
def count (w : WorkingSet) : Nat := w.flags.size

/-- The index is a member. -/
def contains (w : WorkingSet) (i : Nat) : Bool := w.flags.getD i false

/-- The number of indices that are not members. -/
def cardOthers (w : WorkingSet) : Nat := w.count - w.card

/-- The members in ascending order. -/
def members (w : WorkingSet) : List Nat := (List.range w.count).filter w.contains

/-- The indices that are not members, in ascending order. -/
def others (w : WorkingSet) : List Nat := (List.range w.count).filter fun i => !w.contains i

/-- The set with an index joined to it. A member joins without effect. -/
def insert (w : WorkingSet) (i : Nat) : WorkingSet :=
  if i < w.count ∧ w.contains i = false then
    ⟨w.flags.setIfInBounds i true, w.card + 1, some i⟩
  else w

/-- The set without an index. -/
def erase (w : WorkingSet) (i : Nat) : WorkingSet :=
  if w.contains i then
    ⟨w.flags.setIfInBounds i false, w.card - 1, if w.latest = some i then none else w.latest⟩
  else w

/-- The set with all indices joined to it, in ascending order. -/
def insertAll (w : WorkingSet) : WorkingSet := (List.range w.count).foldl insert w

/-- The set with the same bound and without members. -/
def clear (w : WorkingSet) : WorkingSet := empty w.count

/-- Membership of an index below the bound. -/
def contains? (w : WorkingSet) (i : Nat) : Checked Bool :=
  guarded (i < w.count) .outOfRange (w.contains i)

/-- The set with an index below the bound joined to it. -/
def insert? (w : WorkingSet) (i : Nat) : Checked WorkingSet :=
  guarded (i < w.count) .outOfRange (w.insert i)

/-- The set without an index below the bound. -/
def erase? (w : WorkingSet) (i : Nat) : Checked WorkingSet :=
  guarded (i < w.count) .outOfRange (w.erase i)

/-- The members and the other indices, as text. -/
def text (w : WorkingSet) : String :=
  let listing (xs : List Nat) : String := "[" ++ ", ".intercalate (xs.map toString) ++ "]"
  "included " ++ listing w.members ++ " excluded " ++ listing w.others

/-! ## Views -/

@[simp] theorem count_empty (n : Nat) : (empty n).count = n := by simp [empty, count]

@[simp] theorem count_insert (w : WorkingSet) (i : Nat) : (w.insert i).count = w.count := by
  unfold insert
  split <;> simp [count]

@[simp] theorem count_erase (w : WorkingSet) (i : Nat) : (w.erase i).count = w.count := by
  unfold erase
  split <;> simp [count]

@[simp] theorem count_clear (w : WorkingSet) : w.clear.count = w.count := by simp [clear]

/-- The set without members has none. -/
@[simp] theorem contains_empty (n i : Nat) : (empty n).contains i = false := by
  by_cases h : i < n <;> simp [empty, contains, Array.getD, h]

theorem lt_count_of_contains {w : WorkingSet} {i : Nat} (h : w.contains i = true) :
    i < w.count := by
  by_cases hi : i < w.flags.size
  · exact hi
  · simp [contains, Array.getD, hi] at h

theorem mem_members {w : WorkingSet} {i : Nat} : i ∈ w.members ↔ w.contains i = true := by
  simp only [members, List.mem_filter, List.mem_range, and_iff_right_iff_imp]
  exact lt_count_of_contains

theorem mem_others {w : WorkingSet} {i : Nat} :
    i ∈ w.others ↔ i < w.count ∧ w.contains i = false := by
  simp [others]

/-- After a join the members are those before and the index, if it lies below the bound. -/
theorem contains_insert (w : WorkingSet) (i j : Nat) :
    (w.insert i).contains j = (w.contains j || (decide (i = j) && decide (i < w.count))) := by
  unfold insert
  split
  · next h =>
    by_cases hij : i = j
    · subst hij
      simp [contains, Array.getD, show i < w.flags.size from h.1, show i < w.count from h.1]
    · by_cases hj : j < w.flags.size <;> simp [contains, Array.getD, hj, hij]
  · next h =>
    by_cases hij : i = j
    · subst hij
      by_cases hi : i < w.count
      · have : w.contains i = true := by simpa [hi] using h
        simp [this]
      · simp [hi]
    · simp [hij]

/-- After an index has left, the members are the others among those before. -/
theorem contains_erase (w : WorkingSet) (i j : Nat) :
    (w.erase i).contains j = (w.contains j && decide (i ≠ j)) := by
  unfold erase
  split
  · next h =>
    have hi := lt_count_of_contains h
    by_cases hij : i = j
    · subst hij
      simp [contains, Array.getD, show i < w.flags.size from hi]
    · by_cases hj : j < w.flags.size <;> simp [contains, Array.getD, hj, hij]
  · next h =>
    by_cases hij : i = j
    · subst hij; simpa using h
    · simp [hij]

end WorkingSet

end QuadProg
