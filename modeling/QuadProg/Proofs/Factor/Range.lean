import Mathlib
import QuadProg.Factor.Rank

/-!
# Indices of a factorisation

Whatever the entries are, also where comparisons fail on values that are no numbers, the pivot of a
column is one of the rows that remain. So the factors of a square matrix have its size, and each of
the exchanged rows is a row of the matrix.
-/

namespace QuadProg

variable {α : Type} [Scalar α]

/-- The pivot is one of the rows from the start on. -/
theorem Mat.row_pivotFrom (a : Mat α) {start : ℕ} (c : ℕ) (hstart : start < a.rows) :
    start ≤ (a.pivotFrom start c).row ∧ (a.pivotFrom start c).row < a.rows := by
  have key : ∀ (is : List ℕ) (best : Pivot α), (∀ i ∈ is, start ≤ i ∧ i < a.rows) →
      start ≤ best.row ∧ best.row < a.rows →
      start ≤ (is.foldl (a.preferRow c) best).row ∧
        (is.foldl (a.preferRow c) best).row < a.rows := by
    intro is
    induction is with
    | nil => exact fun _ _ hbest => hbest
    | cons i rest ih =>
      intro best his hbest
      obtain ⟨hi, hrest⟩ := List.forall_mem_cons.1 his
      apply ih _ hrest
      unfold preferRow
      dsimp only
      split
      · exact hi
      · exact hbest
  refine key _ _ (fun i hi => ?_) ⟨le_rfl, hstart⟩
  rw [List.mem_range'_1] at hi
  omega

namespace LU

/-- The factors of a matrix with `n` rows: they have as many, and so have the exchanged rows, which
are rows of the matrix. -/
structure Factors.InRange (f : Factors α) (n : ℕ) : Prop where
  rows : f.matrix.rows = n
  size_pivots : f.pivots.size = n
  pivots_lt : ∀ p ∈ f.pivots, p < n

theorem inRange_columns (threshold : α) {ks : List ℕ} {a : Mat α} {pivots : Array ℕ}
    (hks : ∀ k ∈ ks, k < a.rows) (hpivots : ∀ p ∈ pivots, p < a.rows) :
    (columns threshold ks a pivots).matrix.rows = a.rows ∧
      (columns threshold ks a pivots).pivots.size = pivots.size ∧
      ∀ p ∈ (columns threshold ks a pivots).pivots, p < a.rows := by
  induction ks generalizing a pivots with
  | nil => exact ⟨rfl, rfl, hpivots⟩
  | cons k rest ih =>
    obtain ⟨hk, hrest⟩ := List.forall_mem_cons.1 hks
    unfold columns
    dsimp only
    split
    · have hwritten : ∀ p ∈ pivots.setIfInBounds k (a.pivotFrom k k).row, p < a.rows := by
        intro p hp
        rcases Array.mem_or_eq_of_mem_setIfInBounds hp with hp | rfl
        · exact hpivots p hp
        · exact (a.row_pivotFrom k hk).2
      obtain ⟨hrows, hsize, hlt⟩ :=
        ih (a := eliminate (a.swapRows k (a.pivotFrom k k).row) k) hrest hwritten
      exact ⟨hrows, hsize.trans Array.size_setIfInBounds, hlt⟩
    · exact ⟨rfl, rfl, hpivots⟩

theorem inRange_of_compute {f : LU α} {a : Mat α} {g : Factors α}
    (h : (f.compute a).factors = some g) : g.InRange a.rows := by
  have hstart : ∀ p ∈ Array.replicate a.rows 0, p < a.toGeneral.rows := by
    intro p hp
    obtain ⟨hpos, rfl⟩ := Array.mem_replicate.1 hp
    rw [Mat.rows_toGeneral]
    exact Nat.pos_of_ne_zero hpos
  have hks : ∀ k ∈ List.range a.toGeneral.rows, k < a.toGeneral.rows := fun k hk =>
    List.mem_range.1 hk
  obtain ⟨hrows, hsize, hlt⟩ :=
    inRange_columns (f.threshold * a.toGeneral.maxAbs) hks hstart
  unfold compute at h
  dsimp only at h
  split at h
  · obtain rfl := Option.some.inj h
    have hsame := Mat.rows_toGeneral a
    exact ⟨hrows.trans hsame, hsize.trans Array.size_replicate,
      fun p hp => (hlt p hp).trans_eq hsame⟩
  · cases h

theorem solveVec_total {f : LU α} {a : Mat α} (hsolvable : (f.compute a).isSolvable = true)
    {b : Vec α} (hb : b.size = a.rows) :
    ∃ x, (f.compute a).solveVec? b = .ok x ∧ x.size = a.rows := by
  obtain ⟨g, hg⟩ := Option.isSome_iff_exists.1 hsolvable
  have hrows := (inRange_of_compute hg).rows
  refine ⟨g.solveVec b, Checked.bind_eq_ok_iff.2 ⟨g, ?_, guarded_eq_ok (hb.trans hrows.symm)⟩, ?_⟩
  · rw [factors?, hg]
  · rw [Factors.size_solveVec, hrows]

end LU

end QuadProg
