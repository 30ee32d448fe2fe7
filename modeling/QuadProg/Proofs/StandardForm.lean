import QuadProg.Proofs.Tableau.Run
import QuadProg.StandardForm

/-!
# Negated rows

Negating rows with a negative right-hand side multiplies each row by a sign. The solutions stay the
same, and a multiplier of a negated row is the negated multiplier of the row as it was given.
-/

namespace QuadProg

variable {K : Type} [Field K] [LinearOrder K] [Exact K]
variable {a b : Mat K} {m n : ℕ}

theorem StandardForm.fits_exact (m n : ℕ) : StandardForm.Fits K m n :=
  ⟨Memory.holds_exact _, Memory.holds_exact _, Memory.holds_exact _⟩

/-- The sign that makes the right-hand side of a row non-negative. -/
def rowSign (b : Mat K) (r : ℕ) : K := if b.get r 0 < 0 then -1 else 1

theorem rowSign_mul_self (b : Mat K) (r : ℕ) : rowSign b r * rowSign b r = 1 := by
  unfold rowSign
  split <;> simp

theorem rowSign_ne_zero (b : Mat K) (r : ℕ) : rowSign b r ≠ 0 := by
  intro h
  have := rowSign_mul_self b r
  rw [h, zero_mul] at this
  exact zero_ne_one this

theorem get_signedRows_a (ha : a.shape = .general m n) {r j : ℕ} (hr : r < m) (hj : j < n) :
    (signedRows a b).a.get r j = rowSign b r * a.get r j := by
  have hget : (signedRows a b).a.get r j =
      if b.get r 0 < 0 then -1 * a.get r j else a.get r j := by
    show (Mat.ofFn a.shape _).get r j = _
    rw [ha]
    exact Mat.get_ofFn _ hr hj
  rw [hget, rowSign]
  split
  · rfl
  · rw [one_mul]

theorem get_signedRows_b_eq_ite {α : Type} [Scalar α] {a b : Mat α} (hb : b.shape = .general m 1)
    {r : ℕ} (hr : r < m) :
    (signedRows a b).b.get r 0 = if b.get r 0 < 0 then -b.get r 0 else b.get r 0 := by
  show (Mat.ofFn b.shape _).get r 0 = _
  rw [hb]
  exact Mat.get_ofFn _ hr Nat.one_pos

theorem get_signedRows_b (hb : b.shape = .general m 1) {r : ℕ} (hr : r < m) :
    (signedRows a b).b.get r 0 = rowSign b r * b.get r 0 := by
  rw [get_signedRows_b_eq_ite hb hr, rowSign]
  split
  · rw [neg_one_mul]
  · rw [one_mul]

theorem signedRows?_eq_ok {α : Type} [Scalar α] {a b : Mat α} (hb : b.size = (a.rows, 1))
    (ha : a.shape.isPacked = false ∨ ∀ r ∈ List.range a.rows, ¬ b.get r 0 < 0) :
    signedRows? a b = .ok (signedRows a b) := by
  unfold signedRows?
  rw [require_eq_ok hb, guarded_eq_ok ha]
  rfl

@[simp] theorem cols_signedRows (a b : Mat K) : (signedRows a b).a.cols = a.cols := rfl

theorem lhs_signedRows (ha : a.shape = .general m n) {r : ℕ} (hr : r < m) (x : ℕ → K) :
    (signedRows a b).a.lhs r x = rowSign b r * a.lhs r x := by
  have hn : a.cols = n := by rw [Mat.cols, ha]; rfl
  rw [Mat.lhs, Mat.lhs, Finset.mul_sum, cols_signedRows]
  refine Finset.sum_congr rfl fun j hj => ?_
  rw [get_signedRows_a ha hr (hn ▸ Finset.mem_range.1 hj), mul_assoc]

/-- Negating rows keeps the solutions. -/
theorem nonnegSolution_signedRows_iff (ha : a.shape = .general m n) (hb : b.shape = .general m 1)
    (x : ℕ → K) :
    NonnegSolution (signedRows a b).a (signedRows a b).b x ↔ NonnegSolution a b x := by
  have hm : a.rows = m := by rw [Mat.rows, ha]; rfl
  have hrow : ∀ i < a.rows, (signedRows a b).a.lhs i x = (signedRows a b).b.get i 0 ↔
      a.lhs i x = b.get i 0 := by
    intro i hi
    rw [lhs_signedRows ha (hm ▸ hi), get_signedRows_b hb (hm ▸ hi)]
    exact mul_right_inj' (rowSign_ne_zero b i)
  constructor
  · intro h
    exact ⟨h.nonneg, fun i hi => (hrow i hi).1 (h.solves i hi)⟩
  · intro h
    exact ⟨h.nonneg, fun i hi => (hrow i hi).2 (h.solves i hi)⟩

variable [IsStrictOrderedRing K]

theorem get_signedRows_b_nonneg (hb : b.shape = .general m 1) {r : ℕ} (hr : r < m) :
    0 ≤ (signedRows a b).b.get r 0 := by
  rw [get_signedRows_b hb hr, rowSign]
  split
  · linarith
  · linarith

end QuadProg
