import QuadProg.Proofs.Tableau.Run

/-!
# Indices of a tableau

Over any scalars a run keeps to the rows and columns of its tableau: the basis has an entry for each
row, an entry that is not artificial is a column of the program, and the next pivot is on a
constraint row and on a column of the program that is not basic.
-/

namespace QuadProg

namespace Tableau

variable {α : Type} [Scalar α] {par : Params α} {t : Tableau α}

/-! ## The views of the basis -/

/-- The next pivot is on a constraint row and on a column of the program that is not basic. -/
theorem Bookkept.of_nextPivot (h : t.Bookkept) {row col : ℕ}
    (hnext : t.nextPivot par = .ok (row, col)) :
    row < t.m ∧ col < t.n ∧ t.columns.contains col = false := by
  obtain ⟨he, hl⟩ := nextPivot_eq_ok_iff.1 hnext
  exact ⟨List.mem_range.1 (Selection.mem_of_choice_least hl).1, h.enteringColumn_lt he,
    (WorkingSet.mem_others.1 (Selection.mem_of_choice_least he).1).2⟩

/-- A column that enters is basic nowhere, so a pivot keeps the views of the basis in agreement. -/
theorem Bookkept.pivot_of_contains_eq_false (h : t.Bookkept) {row col : ℕ} (hrow : row < t.m)
    (hcol : col < t.n) (hfree : t.columns.contains col = false) : (t.pivot row col).Bookkept := by
  refine h.pivot hrow hcol fun r hr he => ?_
  rw [(h.contains_iff col).2 ⟨r, hr, he⟩] at hfree
  cases hfree

theorem Bookkept.enterPhaseTwo (h : t.Bookkept) (par : Params α) :
    (t.enterPhaseTwo par).1.Bookkept := by
  rw [enterPhaseTwo_eq]
  split
  · exact h.progress _ _ _
  · exact h

theorem Bookkept.advance (h : t.Bookkept) {row col : ℕ}
    (hnext : t.nextPivot par = .ok (row, col)) : (t.advance row col).1.Bookkept := by
  obtain ⟨hrow, hcol, hfree⟩ := h.of_nextPivot hnext
  rw [advance_eq]
  exact (h.pivot_of_contains_eq_false hrow hcol hfree).progress _ _ _

/-! ## The views and the storage together -/

/-- Whatever a run reads or writes next lies inside of the tableau. -/
structure InRange (par : Params α) (t : Tableau α) : Prop where
  shape_grid : t.grid.shape = .general (t.m + 2) (t.n + t.m + 1)
  bookkept : t.Bookkept
  pivot : ∀ row col, t.nextPivot par = .ok (row, col) →
    row < t.m ∧ col < t.n ∧ t.columns.contains col = false

theorem inRange_of_bookkept (par : Params α)
    (hshape : t.grid.shape = .general (t.m + 2) (t.n + t.m + 1)) (h : t.Bookkept) :
    InRange par t :=
  ⟨hshape, h, fun _ _ => h.of_nextPivot⟩

theorem InRange.enterPhaseTwo (h : InRange par t) : InRange par (t.enterPhaseTwo par).1 := by
  refine inRange_of_bookkept par ?_ (h.bookkept.enterPhaseTwo par)
  rw [enterPhaseTwo_eq]
  split
  · exact h.shape_grid
  · exact h.shape_grid

theorem InRange.advance (h : InRange par t) {row col : ℕ}
    (hnext : t.nextPivot par = .ok (row, col)) : InRange par (t.advance row col).1 := by
  refine inRange_of_bookkept par ?_ (h.bookkept.advance hnext)
  rw [advance_eq]
  exact h.shape_grid

theorem InRange.tested (h : InRange par t) (fuel : ℕ) :
    ∀ t' ∈ tested par fuel t, InRange par t' :=
  forall_mem_tested (InRange par) (fun _ h => h.enterPhaseTwo)
    (fun _ _ _ h hnext => h.advance hnext) fuel h

theorem inRange_ofStandardForm (par : Params α) (a b c : Mat α) :
    InRange par (ofStandardForm a b c) :=
  inRange_of_bookkept par rfl (bookkept_ofStandardForm a b c)

end Tableau

end QuadProg
