import Mathlib
import QuadProg.Memory.Mat
import QuadProg.Tolerance

/-!
# Exact arithmetic

An ordered field serves as scalars once three numbers and functions are given that the field axioms
do not provide: a square root, a tiny number and a number above every ratio. Read over such scalars
the loops of the library are finite sums, and a tolerance whose thresholds are zero decides
equality.
-/

namespace QuadProg

open Finset

/-- What an ordered field needs besides its operations to serve as scalars. -/
class Exact (K : Type) where
  /-- The square root. -/
  sqrt : K → K
  /-- The number that counts as tiny next to one. -/
  epsilon : K
  /-- The number that counts as larger than every ratio. -/
  maxValue : K

instance Exact.toScalar {K : Type} [Field K] [LinearOrder K] [Exact K] : Scalar K where
  abs a := |a|
  sqrt := Exact.sqrt
  epsilon := Exact.epsilon
  maxValue := Exact.maxValue
  beq a b := decide (a = b)
  decLt a b := inferInstanceAs (Decidable (a < b))
  decLe a b := inferInstanceAs (Decidable (a ≤ b))

/-- The square root of a number that is not negative is exact. -/
class ExactRoots (K : Type) [Field K] [LinearOrder K] [Exact K] : Prop where
  sqrt_nonneg : ∀ x : K, 0 ≤ x → 0 ≤ (Scalar.sqrt x : K)
  sqrt_mul_self : ∀ x : K, 0 ≤ x → (Scalar.sqrt x : K) * Scalar.sqrt x = x

/-- The real numbers with their square root, no tiny number and a given largest ratio. -/
@[reducible] noncomputable def Exact.real (maxValue : ℝ) : Exact ℝ := ⟨Real.sqrt, 0, maxValue⟩

theorem ExactRoots.real (maxValue : ℝ) : @ExactRoots ℝ _ _ (Exact.real maxValue) :=
  letI := Exact.real maxValue
  ⟨fun x _ => Real.sqrt_nonneg x, fun _ hx => Real.mul_self_sqrt hx⟩

/-- The rational numbers for computations that take no square root. -/
@[reducible] def Exact.rational (maxValue : ℚ) : Exact ℚ := ⟨id, 0, maxValue⟩

/-- The rational numbers with the tiny number and the largest ratio of double precision, for
computations that take no square root. -/
@[reducible] def Exact.double : Exact ℚ := ⟨id, 1 / 2 ^ 52, (2 - 1 / 2 ^ 52) * 2 ^ 1023⟩

variable {K : Type} [Field K] [LinearOrder K] [Exact K]

/-! ## Memory -/

/-- Exact numbers are not kept in the memory of a machine. -/
theorem Memory.holds_exact (s : Shape) : Holds K s := fun h => absurd h (Nat.lt_irrefl 0)

theorem Memory.holdsList_exact (count : ℕ) : HoldsList K count := fun h =>
  absurd h (Nat.lt_irrefl 0)

/-! ## Sums -/

namespace Scalar

@[simp] theorem sumTo_eq_sum (f : ℕ → K) (n : ℕ) : sumTo f n = ∑ i ∈ range n, f i := by
  induction n with
  | zero => rfl
  | succ n ih => rw [sum_range_succ, ← ih]; rfl

@[simp] theorem diffTo_eq_sub_sum (s : K) (f : ℕ → K) (n : ℕ) :
    diffTo s f n = s - ∑ i ∈ range n, f i := by
  induction n with
  | zero => simp [diffTo]
  | succ n ih => rw [sum_range_succ, ← sub_sub, ← ih]; rfl

@[simp] theorem abs_eq_abs (a : K) : Scalar.abs a = |a| := rfl

@[simp] theorem max_eq_max (a b : K) : Scalar.max a b = Max.max a b := by
  have hself : (a == a) = true := decide_eq_true rfl
  rcases lt_or_ge a b with h | h
  · rw [Scalar.max, if_pos h, max_eq_right h.le]
  · rw [Scalar.max, if_neg (not_lt.2 h), if_pos hself, max_eq_left h]

theorem le_foldl_max {β : Type} (f : β → K) (l : List β) (m : K) :
    m ≤ l.foldl (fun m i => Scalar.max m (f i)) m := by
  induction l generalizing m with
  | nil => exact le_rfl
  | cons i rest ih =>
    refine le_trans ?_ (ih _)
    exact (le_max_left m (f i)).trans (max_eq_max m (f i)).ge

end Scalar

/-! ## Vectors and matrices -/

/-- The left-hand side of the row `r` at the point `x`. -/
def Mat.lhs (a : Mat K) (r : ℕ) (x : ℕ → K) : K := ∑ j ∈ range a.cols, a.get r j * x j

theorem Vec.dot_eq_sum (x y : Vec K) : x.dot y = ∑ k ∈ range x.size, x.entry k * y.entry k := by
  simp [Vec.dot]

theorem Vec.ext_entry {α : Type} [Scalar α] {x y : Vec α} (hsize : x.size = y.size)
    (h : ∀ i < x.size, x.entry i = y.entry i) : x = y := by
  refine Array.ext hsize fun i hx hy => ?_
  have := h i hx
  simpa [Vec.entry, Array.getD, hx, hy] using this

/-- The whole way from `x` to `y` ends at `y`. -/
theorem Vec.addScaled_one_sub {x y : Vec K} (h : x.size = y.size) :
    Vec.addScaled 1 (Vec.addScaled (-1) x y) x = y := by
  refine Vec.ext_entry (by rw [Vec.size_addScaled, h]) fun i hi => ?_
  rw [Vec.size_addScaled] at hi
  rw [Vec.entry_addScaled hi, Vec.entry_addScaled (h ▸ hi)]
  ring

/-- Only the zero vector has the norm zero. -/
theorem Vec.entry_eq_zero_of_norm [IsStrictOrderedRing K] [ExactRoots K] {x : Vec K}
    (h : x.norm = 0) {i : ℕ} (hi : i < x.size) : x.entry i = 0 := by
  have hnonneg : ∀ k ∈ range x.size, 0 ≤ x.entry k * x.entry k := fun k _ => mul_self_nonneg _
  have hdot : x.dot x = 0 := by
    have hroot := ExactRoots.sqrt_mul_self (x.dot x) (by
      rw [Vec.dot_eq_sum]
      exact sum_nonneg hnonneg)
    rw [← hroot, show Scalar.sqrt (x.dot x) = (0 : K) from h, mul_zero]
  rw [Vec.dot_eq_sum, sum_eq_zero_iff_of_nonneg hnonneg] at hdot
  exact mul_self_eq_zero.1 (hdot i (mem_range.2 hi))

theorem Mat.rowDot_eq_lhs (a : Mat K) (r : ℕ) (x : Vec K) : a.rowDot r x = a.lhs r x.entry := by
  simp [Mat.rowDot, Mat.lhs]

theorem Mat.columnDot_eq_sum (a : Mat K) (c : ℕ) (x : Vec K) :
    a.columnDot c x = ∑ r ∈ range a.rows, a.get r c * x.entry r := by
  simp [Mat.columnDot]

theorem Mat.entry_mulVec_eq_lhs {a : Mat K} {x : Vec K} {r : ℕ} (h : r < a.rows) :
    (a.mulVec x).entry r = a.lhs r x.entry := by
  rw [Mat.entry_mulVec h, Mat.rowDot_eq_lhs, one_mul, mul_zero, add_zero]

theorem Mat.lhs_congr {a : Mat K} {r : ℕ} {x y : ℕ → K} (h : ∀ j < a.cols, x j = y j) :
    a.lhs r x = a.lhs r y :=
  sum_congr rfl fun j hj => by rw [h j (mem_range.1 hj)]

theorem Mat.lhs_zero (a : Mat K) (r : ℕ) : a.lhs r (fun _ => 0) = 0 :=
  sum_eq_zero fun _ _ => mul_zero _

/-- Moving a point moves every left-hand side in proportion. -/
theorem Mat.lhs_add_mul (a : Mat K) (r : ℕ) (x d : ℕ → K) (s : K) :
    a.lhs r (fun j => x j + s * d j) = a.lhs r x + s * a.lhs r d := by
  simp only [Mat.lhs, mul_add, sum_add_distrib, mul_sum]
  congr 1
  exact sum_congr rfl fun j _ => by ring

theorem Mat.lhs_addScaled {a : Mat K} {x : Vec K} (h : a.cols ≤ x.size) (r : ℕ) (s : K)
    (d : Vec K) : a.lhs r (Vec.addScaled s d x).entry = a.lhs r x.entry + s * a.lhs r d.entry := by
  rw [← Mat.lhs_add_mul]
  exact Mat.lhs_congr fun j hj => Vec.entry_addScaled (hj.trans_le h)

theorem Mat.lhs_sub (a : Mat K) (r : ℕ) (x y : ℕ → K) :
    a.lhs r (fun j => x j - y j) = a.lhs r x - a.lhs r y := by
  simp only [Mat.lhs, mul_sub, sum_sub_distrib]

theorem Mat.lhs_sum_mul (a : Mat K) (r m : ℕ) (w : ℕ → ℕ → K) (l : ℕ → K) :
    a.lhs r (fun j => ∑ k ∈ range m, w j k * l k) =
      ∑ k ∈ range m, a.lhs r (fun j => w j k) * l k := by
  simp only [Mat.lhs, mul_sum, sum_mul]
  rw [sum_comm]
  exact sum_congr rfl fun k _ => sum_congr rfl fun j _ => by ring

theorem Mat.lhs_toGeneral (a : Mat K) (r : ℕ) (z : ℕ → K) : a.toGeneral.lhs r z = a.lhs r z := by
  rw [Mat.lhs, Mat.lhs, Mat.cols_toGeneral]
  exact sum_congr rfl fun j _ => by rw [Mat.get_toGeneral]

/-- A row of stacked matrices is a row of the upper or of the lower one. -/
theorem Mat.lhs_above_upper (a b : Mat K) {r : ℕ} (hr : r < a.rows) (z : ℕ → K) :
    (a.above b).lhs r z = a.lhs r z :=
  sum_congr rfl fun j hj => by rw [Mat.get_above_upper a b hr (mem_range.1 hj)]

theorem Mat.lhs_above_lower (a b : Mat K) (hcols : a.cols = b.cols) {r : ℕ} (hr : r < b.rows)
    (z : ℕ → K) : (a.above b).lhs (a.rows + r) z = b.lhs r z := by
  rw [Mat.lhs, show (a.above b).cols = b.cols from hcols]
  refine sum_congr rfl fun j hj => ?_
  rw [Mat.get_above_lower a b hr (by rw [hcols]; exact mem_range.1 hj)]

/-- A row of matrices side by side takes the point in two parts. -/
theorem Mat.lhs_beside (a b : Mat K) {r : ℕ} (hr : r < a.rows) (z : ℕ → K) :
    (a.beside b).lhs r z = a.lhs r z + b.lhs r fun j => z (a.cols + j) := by
  rw [Mat.lhs, show (a.beside b).cols = a.cols + b.cols from rfl, sum_range_add]
  congr 1
  · exact sum_congr rfl fun j hj => by rw [Mat.get_beside_left a b hr (mem_range.1 hj)]
  · exact sum_congr rfl fun j hj => by rw [Mat.get_beside_right a b hr (mem_range.1 hj)]

/-! ## Tolerances -/

namespace Tolerance

/-- Both thresholds are zero. -/
structure IsExact (tol : Tolerance K) : Prop where
  relative : tol.relative = 0
  absolute : tol.absolute = 0

variable [IsStrictOrderedRing K] {tol : Tolerance K}

theorem isZero_iff (h : tol.IsExact) (v : K) : tol.isZero v = true ↔ v = 0 := by
  simp [isZero, h.absolute]

/-- Next to anything, only zero is negligible. -/
theorem isSmall_iff (h : tol.IsExact) (scale v : K) : tol.isSmall scale v = true ↔ v = 0 := by
  unfold isSmall
  split
  · exact isZero_iff h v
  · simp [h.relative]

theorem isSmall_eq_decide (h : tol.IsExact) (scale v : K) :
    tol.isSmall scale v = decide (v = 0) := by
  rw [Bool.eq_iff_iff, isSmall_iff h, decide_eq_true_iff]

theorem differ_iff (h : tol.IsExact) (a b : K) : tol.differ a b = true ↔ a ≠ b := by
  simp [differ, h.absolute, h.relative, sub_eq_zero]

theorem differ_eq_decide (h : tol.IsExact) (a b : K) : tol.differ a b = decide (a ≠ b) := by
  rw [Bool.eq_iff_iff, differ_iff h, decide_eq_true_iff]

end Tolerance

end QuadProg
