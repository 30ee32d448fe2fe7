import QuadProg.Factor.Rank
import QuadProg.Proofs.Factor.LU

/-!
# Full row rank

Elimination finds as many pivots as there are rows only if the rows are independent: a combination
of rows that vanishes has no weight on the row of the first pivot, since the other rows were cleared
in its column. It never finds more pivots than there are rows or columns.
-/

namespace QuadProg

open Finset

/-- Whatever the scalars are, there are at most as many pivots as rows and as columns. -/
theorem Mat.rank_le {α : Type} [Scalar α] (a : Mat α) (relative : α) :
    a.rank relative ≤ min a.rows a.cols := by
  unfold Mat.rank
  split
  · exact Nat.zero_le _
  · split
    · exact Nat.zero_le _
    · have hle := Rank.sweep_le (relative * a.toGeneral.maxAbs) a.toGeneral.cols 0 a.toGeneral
        (Nat.zero_le _)
      rw [Mat.rows_toGeneral, Mat.cols_toGeneral, Nat.zero_add] at hle
      rw [Rank.reduce, Mat.cols_toGeneral]
      exact le_min hle.1 hle.2

namespace Rank

variable {K : Type} [Field K] [LinearOrder K] [Exact K]

/-- Only the trivial combination of the rows in `[start, nr)` vanishes in the columns `[c, nc)`. -/
def RowsIndependent (nr nc : ℕ) (a : Mat K) (start c : ℕ) : Prop :=
  ∀ l : ℕ → K, (∀ j, c ≤ j → j < nc → ∑ i ∈ Ico start nr, l i * a.get i j = 0) →
    ∀ i, start ≤ i → i < nr → l i = 0

variable {a : Mat K} {nr nc start c : ℕ}

theorem RowsIndependent.of_swapRows (hshape : a.shape = .general nr nc) {p : ℕ} (hge : start ≤ p)
    (hlt : p < nr) (h : RowsIndependent nr nc (a.swapRows start p) start c) :
    RowsIndependent nr nc a start c := by
  have hmem : ∀ i, i ∈ Ico start nr ↔ Equiv.swap start p i ∈ Ico start nr := by
    intro i
    rw [Equiv.swap_apply_def, mem_Ico, mem_Ico]
    split_ifs <;> omega
  intro l hl i hi hin
  have hsum : ∀ j, c ≤ j → j < nc → ∑ i ∈ Ico start nr,
      l (Equiv.swap start p i) * (a.swapRows start p).get i j = 0 := by
    intro j hj hjn
    rw [← hl j hj hjn]
    refine sum_equiv (Equiv.swap start p) hmem fun i hi => ?_
    rw [Mat.get_swapRows hshape (mem_Ico.1 hi).2 hjn]
  have hi' := mem_Ico.1 ((hmem i).1 (mem_Ico.2 ⟨hi, hin⟩))
  have hzero := h (fun i => l (Equiv.swap start p i)) hsum _ hi'.1 hi'.2
  rwa [Equiv.swap_apply_self] at hzero

theorem get_eliminate (hshape : a.shape = .general nr nc) {r j : ℕ} (hr : start < r) (hrn : r < nr)
    (hj : c ≤ j) (hjn : j < nc) :
    (eliminate a start c).get r j = a.get r j - a.get r c / a.get start c * a.get start j := by
  rw [eliminate, Mat.get_ofFn_of_shape _ hshape hrn hjn, if_pos ⟨hr, hj⟩]

/-- The row of a pivot has no weight in a combination that vanishes, and without it the rows that
were cleared combine in the same way as before. -/
theorem RowsIndependent.of_eliminate (hshape : a.shape = .general nr nc) (hstart : start < nr)
    (hc : c < nc) (hpivot : a.get start c ≠ 0)
    (h : RowsIndependent nr nc (eliminate a start c) (start + 1) (c + 1)) :
    RowsIndependent nr nc a start c := by
  intro l hl
  let weight : K := l start + ∑ i ∈ Ico (start + 1) nr, l i * (a.get i c / a.get start c)
  have hsplit : ∀ j, c ≤ j → j < nc →
      ∑ i ∈ Ico (start + 1) nr, l i * (eliminate a start c).get i j +
        weight * a.get start j = 0 := by
    intro j hj hjn
    rw [← hl j hj hjn, sum_eq_sum_Ico_succ_bot hstart, add_mul, sum_mul, add_left_comm,
      ← sum_add_distrib]
    congr 1
    refine sum_congr rfl fun i hi => ?_
    have hi := mem_Ico.1 hi
    rw [get_eliminate hshape (by omega) hi.2 hj hjn]
    ring
  have hweight : weight = 0 := by
    have hcleared : ∑ i ∈ Ico (start + 1) nr, l i * (eliminate a start c).get i c = 0 := by
      refine sum_eq_zero fun i hi => ?_
      have hi := mem_Ico.1 hi
      rw [get_eliminate hshape (by omega) hi.2 le_rfl hc, div_mul_cancel₀ _ hpivot, sub_self,
        mul_zero]
    have hcol := hsplit c le_rfl hc
    rw [hcleared, zero_add] at hcol
    exact (mul_eq_zero.1 hcol).resolve_right hpivot
  have hrest : ∀ i, start + 1 ≤ i → i < nr → l i = 0 := by
    refine h l fun j hj hjn => ?_
    have := hsplit j (by omega) hjn
    rwa [hweight, zero_mul, add_zero] at this
  intro i hi hin
  rcases Nat.eq_or_lt_of_le hi with rfl | hlt
  · have hsum : ∑ i ∈ Ico (start + 1) nr, l i * (a.get i c / a.get start c) = 0 := by
      refine sum_eq_zero fun i hi => ?_
      have hi := mem_Ico.1 hi
      rw [hrest i hi.1 hi.2, zero_mul]
    simpa only [weight, hsum, add_zero] using hweight
  · exact hrest i hlt hin

variable [IsStrictOrderedRing K]

/-- A sweep that ends with a pivot in every row has met independent rows. -/
theorem rowsIndependent_of_sweep {threshold : K} (hthreshold : 0 ≤ threshold) {left found : ℕ}
    (hshape : a.shape = .general nr nc) (hleft : left ≤ nc) (hfound : found ≤ nr)
    (h : (sweep threshold left found a).1 = nr) : RowsIndependent nr nc a found (nc - left) := by
  induction left generalizing found a with
  | zero =>
    obtain rfl : found = nr := h
    exact fun l _ i hi hin => absurd hin (not_lt.2 hi)
  | succ left ih =>
    have hrows : a.rows = nr := by rw [Mat.rows, hshape]; rfl
    have hcols : a.cols = nc := by rw [Mat.cols, hshape]; rfl
    have hnext : nc - left = nc - (left + 1) + 1 := by omega
    rw [sweep, hcols, hrows] at h
    split at h
    · next hfull =>
      rw [hfull]
      exact fun l _ i hi hin => absurd hin (not_lt.2 hi)
    · next hfull =>
      obtain ⟨hge, hlt, hmag, -⟩ := Mat.pivotFrom_spec (a := a) (c := nc - (left + 1))
        (show found < a.rows by omega)
      rw [hrows] at hlt
      dsimp only at h
      split at h
      · next hpivot =>
        have hswap := ih (a := eliminate (a.swapRows found _) found _) hshape (by omega)
          (by omega) h
        rw [hnext] at hswap
        refine RowsIndependent.of_swapRows hshape hge hlt
          (RowsIndependent.of_eliminate hshape (by omega) (by omega) ?_ hswap)
        rw [Mat.get_swapRows hshape (by omega) (by omega), Equiv.swap_apply_left]
        intro hzero
        rw [hmag, hzero, abs_zero] at hpivot
        exact absurd hpivot (not_lt.2 hthreshold)
      · -- A column that is passed over only adds an equation.
        have hpass := ih hshape (by omega) hfound h
        intro l hl
        refine hpass l fun j hj hjn => hl j (by omega) hjn

theorem rowsIndependent_of_rank {relative : K} (hrelative : 0 ≤ relative)
    (h : a.rank relative = a.rows) : RowsIndependent a.rows a.cols a 0 0 := by
  by_cases hrows : a.rows = 0
  · rw [hrows]
    exact fun l _ i _ hin => absurd hin (Nat.not_lt_zero i)
  unfold Mat.rank at h
  split at h
  · omega
  · split at h
    · omega
    · have hτ := mul_nonneg hrelative (LU.maxAbs_nonneg a.toGeneral)
      rw [reduce, Mat.cols_toGeneral] at h
      have hind := rowsIndependent_of_sweep hτ a.shape_toGeneral le_rfl (Nat.zero_le _) h
      rw [Nat.sub_self] at hind
      intro l hl
      refine hind l fun j hj hjn => ?_
      rw [← hl j hj hjn]
      exact sum_congr rfl fun i _ => by rw [Mat.get_toGeneral]

end Rank

end QuadProg
