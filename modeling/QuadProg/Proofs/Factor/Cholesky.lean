import QuadProg.Factor.Cholesky
import QuadProg.Proofs.Factor.Triangular
import QuadProg.Proofs.QuadraticForm

/-!
# The Cholesky factor

With exact square roots a complete factorisation gives a lower triangular matrix with positive
diagonal whose product with its transpose is the given symmetric matrix. So the matrix is positive
definite, and substitution solves its systems.
-/

namespace QuadProg

open Finset

namespace Cholesky

section Columns

variable {α : Type} [Scalar α] {l : Mat α} {n j : ℕ}

theorem get_writeColumn_of_ne (hshape : l.shape = .general n n) (d : α) {r c : ℕ} (hc : c ≠ j) :
    (writeColumn l j d).get r c = l.get r c := by
  by_cases hrc : r < n ∧ c < n
  · rw [writeColumn, Mat.get_ofFn_of_shape _ hshape hrc.1 hrc.2, if_neg hc]
  · have hl : ¬ l.shape.Contains r c := by rw [hshape]; exact hrc
    rw [Mat.get_of_not_contains hl]
    exact Mat.get_of_not_contains hl

theorem get_writeColumn_diag (hshape : l.shape = .general n n) (d : α) (hj : j < n) :
    (writeColumn l j d).get j j = d := by
  rw [writeColumn, Mat.get_ofFn_of_shape _ hshape hj hj, if_pos rfl, if_pos rfl]

theorem get_writeColumn_below (hshape : l.shape = .general n n) (d : α) {r : ℕ} (hjr : j < r)
    (hr : r < n) : (writeColumn l j d).get r j = remainder l r j / d := by
  rw [writeColumn, Mat.get_ofFn_of_shape _ hshape hr (by omega), if_pos rfl, if_neg (by omega),
    if_pos hjr]

end Columns

variable {K : Type} [Field K] [LinearOrder K] [Exact K]

/-- The first `j` columns of `l` are those of the factor of `a`, the others those of `a`. -/
structure Factored (a l : Mat K) (n j : ℕ) : Prop where
  shape : l.shape = .general n n
  diag_pos : ∀ c < j, 0 < l.get c c
  product : ∀ c < j, ∀ r, c ≤ r → r < n →
    ∑ k ∈ range (c + 1), l.get r k * l.get c k = a.get r c
  rest : ∀ r c, j ≤ c → l.get r c = a.get r c

section Factored

variable {a l : Mat K} {n j : ℕ}

theorem remainder_eq (l : Mat K) (r j : ℕ) :
    remainder l r j = l.get r j - ∑ k ∈ range j, l.get r k * l.get j k :=
  Scalar.diffTo_eq_sub_sum _ _ _

variable [ExactRoots K]

theorem sqrt_pos {d : K} (hd : 0 < d) : 0 < (Scalar.sqrt d : K) := by
  refine lt_of_le_of_ne (ExactRoots.sqrt_nonneg d hd.le) fun hzero => ?_
  have hsq := ExactRoots.sqrt_mul_self d hd.le
  rw [← hzero, mul_zero] at hsq
  exact hd.ne hsq

/-- One more column. The new column is chosen so that its products with the rows of the factor make
up for what the columns before it leave. -/
theorem Factored.writeColumn (h : Factored a l n j) (hj : j < n) (hd : 0 < remainder l j j) :
    Factored a (writeColumn l j (Scalar.sqrt (remainder l j j))) n (j + 1) := by
  have hpos := sqrt_pos hd
  refine ⟨h.shape, ?_, ?_, ?_⟩
  · intro c hc
    rcases Nat.lt_or_ge c j with hlt | hge
    · rw [get_writeColumn_of_ne h.shape _ (by omega)]
      exact h.diag_pos c hlt
    · obtain rfl : c = j := by omega
      rw [get_writeColumn_diag h.shape _ hj]
      exact hpos
  · intro c hc r hcr hr
    have hbefore : ∀ k ∈ range c, (Cholesky.writeColumn l j (Scalar.sqrt (remainder l j j))).get r k *
        (Cholesky.writeColumn l j (Scalar.sqrt (remainder l j j))).get c k =
          l.get r k * l.get c k := by
      intro k hk
      have hk := mem_range.1 hk
      rw [get_writeColumn_of_ne h.shape _ (by omega), get_writeColumn_of_ne h.shape _ (by omega)]
    rw [sum_range_succ, sum_congr rfl hbefore]
    rcases Nat.lt_or_ge c j with hlt | hge
    · rw [get_writeColumn_of_ne h.shape _ (by omega), get_writeColumn_of_ne h.shape _ (by omega),
        ← sum_range_succ]
      exact h.product c hlt r hcr hr
    · obtain rfl : c = j := by omega
      have hrem := remainder_eq l r c
      rw [h.rest r c le_rfl] at hrem
      rw [get_writeColumn_diag h.shape _ hj]
      rcases Nat.eq_or_lt_of_le hcr with rfl | hlt
      · rw [get_writeColumn_diag h.shape _ hj, ExactRoots.sqrt_mul_self _ hd.le, hrem]
        ring
      · rw [get_writeColumn_below h.shape _ hlt hr, div_mul_cancel₀ _ hpos.ne', hrem]
        ring
  · intro r c hc
    rw [get_writeColumn_of_ne h.shape _ (by omega)]
    exact h.rest r c (by omega)

/-- The factorisation goes through all columns, or it stops at one whose remainder is within the
threshold. -/
theorem Factored.columns_cases {threshold : K} (hthreshold : 0 ≤ threshold) (m : ℕ)
    (h : Factored a l n j) (hm : j + m = n) :
    let e := Cholesky.columns threshold (List.range' j m) l
    (e.complete = true ∧ Factored a e.matrix n n) ∨
      e.complete = false ∧ ∃ k l', k < n ∧ Factored a l' n k ∧ remainder l' k k ≤ threshold := by
  induction m generalizing j l with
  | zero =>
    obtain rfl : j = n := by omega
    exact Or.inl ⟨rfl, h⟩
  | succ m ih =>
    rw [List.range'_succ, Cholesky.columns]
    dsimp only
    split
    · next hd => exact ih (h.writeColumn (by omega) (hthreshold.trans_lt hd)) (by omega)
    · next hd => exact Or.inr ⟨rfl, j, l, by omega, h, not_lt.1 hd⟩

end Factored

/-! ## The product -/

section Product

/-- The lower triangle of the matrix. -/
def lower (l : Mat K) (i k : ℕ) : K := if k ≤ i then l.get i k else 0

variable {a l : Mat K} {n : ℕ}

theorem Factored.sum_lower_mul_lower {j : ℕ} (h : Factored a l n j) (hsymm : a.IsSymm) {r c : ℕ}
    (hr : r < n) (hc : c < n) (hfactored : r < j ∨ c < j) :
    ∑ k ∈ range j, lower l r k * lower l c k = a.get r c := by
  -- Both sides are symmetric in the row and the column.
  have key : ∀ r c, c ≤ r → r < n → c < j →
      ∑ k ∈ range j, lower l r k * lower l c k = a.get r c := by
    intro r c hcr hr hcj
    rw [← h.product c hcj r hcr hr, sum_range_succ, ← Triangular.sum_ite_le hcj]
    refine sum_congr rfl fun k _ => ?_
    unfold lower
    by_cases hk : k ≤ c
    · rw [if_pos (hk.trans hcr), if_pos hk, if_pos hk]
    · rw [if_neg hk, if_neg hk, mul_zero]
  rcases Nat.le_total c r with hcr | hrc
  · exact key r c hcr hr (by omega)
  · rw [hsymm r c, ← key c r hrc hc (by omega)]
    exact sum_congr rfl fun k _ => mul_comm _ _

theorem sum_lower_mul (l : Mat K) {i : ℕ} (hi : i < n) (y : ℕ → K) :
    ∑ k ∈ range n, lower l i k * y k = ∑ k ∈ range i, l.get i k * y k + l.get i i * y i := by
  rw [← Triangular.sum_ite_le hi fun k => l.get i k * y k]
  exact sum_congr rfl fun k _ => by unfold lower; split <;> simp

theorem sum_lower_mul' (l : Mat K) {k : ℕ} (hk : k < n) (x : ℕ → K) :
    ∑ c ∈ range n, lower l c k * x c = l.get k k * x k + ∑ c ∈ Ico (k + 1) n, l.get c k * x c := by
  rw [← Triangular.sum_ite_ge hk fun c => l.get c k * x c]
  exact sum_congr rfl fun c _ => by unfold lower; split <;> simp

/-- A row of the given matrix through the factor: first by its transpose, then by itself. -/
theorem Factored.lhs_eq (h : Factored a l n n) (hsymm : a.IsSymm) (hcols : a.cols = n) {r : ℕ}
    (hr : r < n) (x : ℕ → K) :
    a.lhs r x = ∑ k ∈ range n, lower l r k * ∑ c ∈ range n, lower l c k * x c := by
  simp only [Mat.lhs, hcols, mul_sum]
  rw [sum_comm]
  refine sum_congr rfl fun c hc => ?_
  rw [← h.sum_lower_mul_lower hsymm hr (mem_range.1 hc) (Or.inl hr), sum_mul]
  exact sum_congr rfl fun k _ => by ring

theorem Factored.lhs_substitute (h : Factored a l n n) (hsymm : a.IsSymm) (hcols : a.cols = n)
    (b : Vec K) {r : ℕ} (hr : r < n) : a.lhs r (substitute l b).entry = b.entry r := by
  have hrows : l.rows = n := by rw [Mat.rows, h.shape]; rfl
  unfold substitute
  rw [hrows]
  dsimp only
  generalize hy : Triangular.forward l.get (fun i s => s / l.get i i) b n = y
  generalize hx : (Triangular.backward (fun i k => l.get k i) (fun i s => s / l.get i i) y n
    []).toArray = x
  have hforward : ∀ i < n, ∑ k ∈ range n, lower l i k * y.entry k = b.entry i := by
    intro i hi
    have hdiag : l.get i i ≠ 0 := (h.diag_pos i hi).ne'
    have hentry := Triangular.entry_forward l.get (fun i s => s / l.get i i) b hi
    rw [hy] at hentry
    rw [sum_lower_mul l hi, hentry, mul_div_cancel₀ _ hdiag]
    ring
  have hbackward : ∀ k < n, ∑ c ∈ range n, lower l c k * Vec.entry x c = y.entry k := by
    intro k hk
    have hdiag : l.get k k ≠ 0 := (h.diag_pos k hk).ne'
    have hentry := Triangular.entry_backward (fun i k => l.get k i) (fun i s => s / l.get i i) y hk
    rw [hx] at hentry
    rw [sum_lower_mul' l hk, hentry, mul_div_cancel₀ _ hdiag]
    ring
  calc a.lhs r (Vec.entry x)
      = ∑ k ∈ range n, lower l r k * ∑ c ∈ range n, lower l c k * Vec.entry x c :=
        h.lhs_eq hsymm hcols hr _
    _ = ∑ k ∈ range n, lower l r k * y.entry k :=
        sum_congr rfl fun k hk => by rw [hbackward k (mem_range.1 hk)]
    _ = b.entry r := hforward r hr

variable [IsStrictOrderedRing K]

/-- The quadratic form is the sum of the squares of the factor's transpose applied to the point,
which vanishes at zero only. -/
theorem Factored.isPosDef (h : Factored a l n n) (hsymm : a.IsSymm) (hrows : a.rows = n)
    (hcols : a.cols = n) : a.IsPosDef := by
  intro x hx
  have hform : a.bilin x x = ∑ k ∈ range n, (∑ c ∈ range n, lower l c k * x c) ^ 2 := by
    have hrow : ∀ r ∈ range n, x r * a.lhs r x =
        ∑ k ∈ range n, lower l r k * x r * ∑ c ∈ range n, lower l c k * x c := by
      intro r hr
      rw [h.lhs_eq hsymm hcols (mem_range.1 hr), mul_sum]
      exact sum_congr rfl fun k _ => by ring
    rw [Mat.bilin, hrows, sum_congr rfl hrow, sum_comm]
    exact sum_congr rfl fun k _ => by rw [← sum_mul, sq]
  have hnonneg : ∀ k ∈ range n, 0 ≤ (∑ c ∈ range n, lower l c k * x c) ^ 2 :=
    fun k _ => sq_nonneg _
  refine lt_of_le_of_ne (hform ▸ sum_nonneg hnonneg) fun hzero => ?_
  obtain ⟨i, hi, hne⟩ := hx
  rw [hform, eq_comm, sum_eq_zero_iff_of_nonneg hnonneg] at hzero
  refine hne (Triangular.eq_zero_of_upper (u := fun k c => l.get c k)
    (fun k hk => (h.diag_pos k hk).ne') ?_ i (hrows ▸ hi))
  intro k hk
  rw [← sum_lower_mul' l hk]
  exact pow_eq_zero_iff two_ne_zero |>.1 (hzero k (mem_range.2 hk))

end Product

/-! ## The factorisation of a matrix -/

variable [IsStrictOrderedRing K] [ExactRoots K]

omit [ExactRoots K] in
theorem diagonalScale_nonneg (a : Mat K) : 0 ≤ diagonalScale a :=
  zero_le_one.trans (Scalar.le_foldl_max _ _ 1)

theorem factored_compute {f : Cholesky K} (hthreshold : 0 ≤ f.threshold) {a l : Mat K} {n : ℕ}
    (hrows : a.rows = n) (hcols : a.cols = n) (hl : (f.compute a).factor = some l) :
    Factored a l n n := by
  have hshape : a.toGeneral.shape = .general n n := by rw [Mat.shape_toGeneral, hrows, hcols]
  have hstart : Factored a a.toGeneral n 0 :=
    ⟨hshape, fun c hc => absurd hc (Nat.not_lt_zero c), fun c hc => absurd hc (Nat.not_lt_zero c),
      fun r c _ => Mat.get_toGeneral a r c⟩
  have hτ : 0 ≤ f.threshold * diagonalScale a.toGeneral :=
    mul_nonneg hthreshold (diagonalScale_nonneg _)
  simp only [compute, decompose, Mat.rows_toGeneral, hrows, List.range_eq_range'] at hl
  split at hl
  · next hcomplete =>
    obtain rfl := Option.some.inj hl
    rcases hstart.columns_cases hτ n (Nat.zero_add n) with ⟨-, hfactored⟩ | ⟨hstopped, -⟩
    · exact hfactored
    · rw [hstopped] at hcomplete
      cases hcomplete
  · cases hl

end Cholesky

end QuadProg
