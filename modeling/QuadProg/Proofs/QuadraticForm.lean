import QuadProg.Proofs.Exact

/-!
# Quadratic forms

The quadratic term of a program as a bilinear form on points. Points are functions on the natural
numbers; only the coordinates below the size of the matrix count.
-/

namespace QuadProg

open Finset

namespace Mat

variable {K : Type} [Field K] [LinearOrder K] [Exact K]

/-- The matrix is symmetric. -/
def IsSymm (q : Mat K) : Prop := ∀ i j, q.get i j = q.get j i

/-- The value `x Q y`. -/
def bilin (q : Mat K) (x y : ℕ → K) : K := ∑ i ∈ range q.rows, x i * q.lhs i y

/-- No point has a negative value `x Q x`. -/
def IsPosSemidef (q : Mat K) : Prop := ∀ x, 0 ≤ q.bilin x x

/-- Every point but zero has a positive value `x Q x`. -/
def IsPosDef (q : Mat K) : Prop := ∀ x, (∃ i < q.rows, x i ≠ 0) → 0 < q.bilin x x

variable {q : Mat K}

theorem isSymm_of_one (hrows : q.rows = 1) (hcols : q.cols = 1) : q.IsSymm := by
  intro i j
  by_cases h : i = 0 ∧ j = 0
  · rw [h.1, h.2]
  · have hij : ¬ q.shape.Contains i j := by
      rintro ⟨hi, hj⟩
      exact h ⟨Nat.lt_one_iff.1 (hrows ▸ hi), Nat.lt_one_iff.1 (hcols ▸ hj)⟩
    have hji : ¬ q.shape.Contains j i := by
      rintro ⟨hj, hi⟩
      exact h ⟨Nat.lt_one_iff.1 (hcols ▸ hi), Nat.lt_one_iff.1 (hrows ▸ hj)⟩
    rw [get_of_not_contains hij, get_of_not_contains hji]

theorem bilin_add_mul_right (x y d : ℕ → K) (s : K) :
    q.bilin x (fun j => y j + s * d j) = q.bilin x y + s * q.bilin x d := by
  simp only [bilin, lhs_add_mul, mul_add, sum_add_distrib, mul_sum]
  congr 1
  exact sum_congr rfl fun i _ => by ring

theorem bilin_add_mul_left (x d y : ℕ → K) (s : K) :
    q.bilin (fun j => x j + s * d j) y = q.bilin x y + s * q.bilin d y := by
  simp only [bilin, add_mul, sum_add_distrib, mul_sum]
  congr 1
  exact sum_congr rfl fun i _ => by ring

theorem bilin_comm (hsymm : q.IsSymm) (hsquare : q.rows = q.cols) (x y : ℕ → K) :
    q.bilin x y = q.bilin y x := by
  simp only [bilin, lhs, mul_sum, hsquare]
  rw [sum_comm]
  refine sum_congr rfl fun j _ => sum_congr rfl fun i _ => ?_
  rw [hsymm i j]
  ring

theorem bilin_line (hsymm : q.IsSymm) (hsquare : q.rows = q.cols) (x d : ℕ → K) (s : K) :
    q.bilin (fun j => x j + s * d j) (fun j => x j + s * d j) =
      q.bilin x x + 2 * s * q.bilin d x + s * s * q.bilin d d := by
  rw [bilin_add_mul_left, bilin_add_mul_right, bilin_add_mul_right, bilin_comm hsymm hsquare x d]
  ring

theorem IsPosDef.isPosSemidef (h : q.IsPosDef) : q.IsPosSemidef := by
  intro x
  by_cases hx : ∃ i < q.rows, x i ≠ 0
  · exact (h x hx).le
  · push Not at hx
    exact (sum_eq_zero fun i hi => by rw [hx i (mem_range.1 hi), zero_mul]).ge

theorem IsPosDef.eq_zero (h : q.IsPosDef) {x : ℕ → K} (hx : q.bilin x x = 0) :
    ∀ i < q.rows, x i = 0 := by
  intro i hi
  by_contra hne
  exact (h x ⟨i, hi, hne⟩).ne' hx

/-- A positive semidefinite matrix maps a point of value zero to zero: otherwise the value would
become negative a little away from the point. -/
theorem IsPosSemidef.lhs_eq_zero [IsStrictOrderedRing K] (h : q.IsPosSemidef) (hsymm : q.IsSymm)
    (hsquare : q.rows = q.cols) {x : ℕ → K} (hx : q.bilin x x = 0) :
    ∀ i < q.rows, q.lhs i x = 0 := by
  intro i hi
  let e : ℕ → K := fun j => if j = i then 1 else 0
  have hslope : q.bilin e x = q.lhs i x := by
    rw [bilin, sum_eq_single_of_mem i (mem_range.2 hi)]
    · simp [e]
    · intro j _ hne
      simp [e, hne]
  have hpos : 0 < q.bilin e e + 1 := by linarith [h e]
  have hline := h fun j => x j + -(q.lhs i x / (q.bilin e e + 1)) * e j
  rw [bilin_line hsymm hsquare, hx, hslope] at hline
  set a := q.lhs i x / (q.bilin e e + 1) with ha
  have hvalue : q.lhs i x = a * (q.bilin e e + 1) := by rw [ha, div_mul_cancel₀ _ hpos.ne']
  rw [hvalue] at hline ⊢
  have hsquare : a * a ≤ 0 := by nlinarith [mul_self_nonneg a, h e]
  rw [mul_self_eq_zero.1 (le_antisymm hsquare (mul_self_nonneg a)), zero_mul]

theorem IsPosDef.eq_of_lhs_eq (h : q.IsPosDef) {x y : ℕ → K}
    (heq : ∀ i < q.rows, q.lhs i x = q.lhs i y) : ∀ i < q.rows, x i = y i := by
  have hzero : q.bilin (fun j => x j - y j) (fun j => x j - y j) = 0 := by
    refine sum_eq_zero fun i hi => ?_
    rw [lhs_sub, heq i (mem_range.1 hi), sub_self, mul_zero]
  intro i hi
  exact sub_eq_zero.1 (h.eq_zero hzero i hi)

end Mat

end QuadProg
