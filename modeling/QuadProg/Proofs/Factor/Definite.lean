import QuadProg.Proofs.Factor.Cholesky
import QuadProg.Proofs.Lossy
import QuadProg.Proofs.Mat.Dense
import QuadProg.Proofs.Mat.Storage

/-!
# Positive definite matrices have a Cholesky factor

Whatever the scalars are, factorisation and substitution work on the lower triangle: what stands
above the diagonal stays as it is and decides nothing. With exact square roots a complete
factorisation leaves a factor of the matrix, and without a threshold it is complete just for the
positive definite matrices: where it stops, the columns before combine to a point whose value is the
remainder that was found too small.
-/

namespace QuadProg

open Finset Matrix

/-! ## The lower triangle decides -/

section Lower

variable {α : Type} [Scalar α]

theorem Scalar.diffTo_congr {s : α} {f g : ℕ → α} {n : ℕ} (h : ∀ i < n, f i = g i) :
    diffTo s f n = diffTo s g n := by
  induction n with
  | zero => rfl
  | succ n ih => rw [diffTo, diffTo, ih fun i hi => h i (by omega), h n (by omega)]

namespace Triangular

variable {coef coef' : ℕ → ℕ → α} {finish finish' : ℕ → α → α} {b : Vec α} {n : ℕ}

theorem forward_congr (hcoef : ∀ i < n, ∀ k < i, coef i k = coef' i k)
    (hfinish : ∀ i < n, finish i = finish' i) :
    forward coef finish b n = forward coef' finish' b n := by
  induction n with
  | zero => rfl
  | succ n ih =>
    rw [forward, forward, ih (fun i hi => hcoef i (by omega)) fun i hi => hfinish i (by omega),
      hfinish n (by omega), Scalar.diffTo_congr fun k hk => by rw [hcoef n (by omega) k hk]]

theorem backward_congr {known : List α} (hcoef : ∀ i < n, ∀ k, i < k → coef i k = coef' i k)
    (hfinish : ∀ i < n, finish i = finish' i) :
    backward coef finish b n known = backward coef' finish' b n known := by
  induction n generalizing known with
  | zero => rfl
  | succ n ih =>
    rw [backward, backward, ih (fun i hi => hcoef i (by omega)) fun i hi => hfinish i (by omega),
      hfinish n (by omega), Scalar.diffTo_congr fun t _ => by rw [hcoef n (by omega) _ (by omega)]]

end Triangular

namespace Cholesky

/-- Two matrices of size `n` that agree on and below the diagonal. -/
structure SameLower (a b : Mat α) (n : ℕ) : Prop where
  left : a.shape = .general n n
  right : b.shape = .general n n
  get : ∀ r c, c ≤ r → a.get r c = b.get r c

section Step

variable {a b : Mat α} {n : ℕ} (h : SameLower a b n)

include h

theorem SameLower.remainder {i j : ℕ} (hji : j ≤ i) : remainder a i j = remainder b i j := by
  rw [Cholesky.remainder, Cholesky.remainder, h.get i j hji]
  exact Scalar.diffTo_congr fun k hk => by rw [h.get i k (by omega), h.get j k hk.le]

theorem SameLower.writeColumn {j : ℕ} (hj : j < n) (d : α) :
    SameLower (writeColumn a j d) (writeColumn b j d) n := by
  refine ⟨h.left, h.right, fun r c hcr => ?_⟩
  by_cases hr : r < n
  · rcases eq_or_ne c j with rfl | hne
    · rcases Nat.eq_or_lt_of_le hcr with rfl | hlt
      · rw [get_writeColumn_diag h.left _ hj, get_writeColumn_diag h.right _ hj]
      · rw [get_writeColumn_below h.left _ hlt hr, get_writeColumn_below h.right _ hlt hr,
          h.remainder hcr]
    · rw [get_writeColumn_of_ne h.left _ hne, get_writeColumn_of_ne h.right _ hne, h.get r c hcr]
  · have houtside : ∀ l : Mat α, l.shape = .general n n → l.get r c = 0 := fun l hl =>
      Mat.get_of_not_contains (by rw [hl]; exact fun hrc => hr hrc.1)
    exact (houtside (Cholesky.writeColumn a j d) h.left).trans
      (houtside (Cholesky.writeColumn b j d) h.right).symm

theorem SameLower.rows_eq : a.rows = b.rows := by rw [Mat.rows, Mat.rows, h.left, h.right]

theorem SameLower.diagonalScale : diagonalScale a = diagonalScale b := by
  simp only [Cholesky.diagonalScale, h.rows_eq, h.get _ _ le_rfl]

theorem SameLower.substitute (v : Vec α) : substitute a v = substitute b v := by
  have hfinish : ∀ i < b.rows, (fun s : α => s / a.get i i) = fun s => s / b.get i i :=
    fun i _ => by rw [h.get i i le_rfl]
  rw [Cholesky.substitute, Cholesky.substitute, h.rows_eq,
    Triangular.forward_congr (fun i _ k hk => h.get i k hk.le) hfinish,
    Triangular.backward_congr (fun i _ k hk => h.get k i hk.le) hfinish]

end Step

/-- A column leaves what stands above the diagonal. -/
theorem get_writeColumn_above {l : Mat α} {n j : ℕ} (hshape : l.shape = .general n n) (d : α)
    {r c : ℕ} (hrc : r < c) : (writeColumn l j d).get r c = l.get r c := by
  rcases eq_or_ne c j with rfl | hne
  · by_cases hc : c < n
    · rw [writeColumn, Mat.get_ofFn_of_shape _ hshape (by omega) hc, if_pos rfl, if_neg (by omega),
        if_neg (by omega)]
    · have hl : ¬ l.shape.Contains r c := by rw [hshape]; exact fun h => hc h.2
      rw [Mat.get_of_not_contains hl]
      exact Mat.get_of_not_contains hl
  · exact get_writeColumn_of_ne hshape d hne

theorem get_columns_above (threshold : α) {l : Mat α} {n : ℕ} (hshape : l.shape = .general n n)
    (js : List ℕ) {r c : ℕ} (hrc : r < c) :
    (columns threshold js l).matrix.get r c = l.get r c := by
  induction js generalizing l with
  | nil => rfl
  | cons j rest ih =>
    unfold columns
    dsimp only
    split
    · exact (ih (l := writeColumn l j _) hshape).trans (get_writeColumn_above hshape _ hrc)
    · rfl

theorem SameLower.columns {a b : Mat α} {n : ℕ} (h : SameLower a b n) (threshold : α)
    {js : List ℕ} (hjs : ∀ j ∈ js, j < n) :
    (columns threshold js a).complete = (columns threshold js b).complete ∧
      SameLower (columns threshold js a).matrix (columns threshold js b).matrix n := by
  induction js generalizing a b with
  | nil => exact ⟨rfl, h⟩
  | cons j rest ih =>
    obtain ⟨hj, hrest⟩ := List.forall_mem_cons.1 hjs
    unfold Cholesky.columns
    dsimp only
    rw [h.remainder le_rfl]
    split
    · exact ih (h.writeColumn hj _) hrest
    · exact ⟨rfl, h⟩

theorem SameLower.decompose {a b : Mat α} {n : ℕ} (h : SameLower a b n) (relative : α) :
    (decompose a relative).complete = (decompose b relative).complete ∧
      SameLower (decompose a relative).matrix (decompose b relative).matrix n := by
  have hrows : b.rows = n := by rw [Mat.rows, h.right]; rfl
  rw [Cholesky.decompose, Cholesky.decompose, h.diagonalScale, h.rows_eq]
  exact h.columns _ fun j hj => (List.mem_range.1 hj).trans_eq hrows

end Cholesky

end Lower

/-! ## Where the factorisation stops -/

namespace Cholesky

variable {K : Type} [Field K] [LinearOrder K] [Exact K] {a l : Mat K} {n j : ℕ}

/-- Up to the first column that is not yet factored, the matrix is the product of the columns before
it, but for the remainder on the diagonal. -/
theorem Factored.get_eq (h : Factored a l n j) (hsymm : a.IsSymm) (hj : j < n) {r c : ℕ}
    (hr : r ≤ j) (hc : c ≤ j) :
    a.get r c = ∑ k ∈ range j, lower l r k * lower l c k +
      if r = j ∧ c = j then remainder l j j else 0 := by
  by_cases hlast : r = j ∧ c = j
  · have hsum : ∑ k ∈ range j, lower l j k * lower l j k =
        ∑ k ∈ range j, l.get j k * l.get j k := by
      refine sum_congr rfl fun k hk => ?_
      rw [lower, if_pos (mem_range.1 hk).le]
    rw [if_pos hlast, hlast.1, hlast.2, remainder_eq, h.rest j j le_rfl, hsum]
    ring
  · rw [if_neg hlast, add_zero]
    exact (h.sum_lower_mul_lower hsymm (by omega) (by omega) (by omega)).symm

omit [LinearOrder K] [Exact K] in
theorem sum_range_of_vanishing (hj : j < n) {x : ℕ → K} (hx : ∀ i, j < i → x i = 0) (f : ℕ → K) :
    ∑ i ∈ range n, f i * x i = ∑ i ∈ range (j + 1), f i * x i := by
  refine (sum_subset (range_subset_range.2 hj) fun i _ hi => ?_).symm
  rw [hx i (by simpa using hi), mul_zero]

/-- At a point whose coordinates after `j` vanish, the rows up to `j` are what the columns before
`j` account for, and the remainder in row `j`. -/
theorem Factored.lhs_of_vanishing (h : Factored a l n j) (hsymm : a.IsSymm) (hcols : a.cols = n)
    (hj : j < n) {x : ℕ → K} (hx : ∀ i, j < i → x i = 0) {r : ℕ} (hr : r ≤ j) :
    a.lhs r x = ∑ k ∈ range j, lower l r k * ∑ c ∈ range (j + 1), lower l c k * x c +
      if r = j then remainder l j j * x j else 0 := by
  have hentry : ∀ c ∈ range (j + 1), a.get r c * x c =
      ∑ k ∈ range j, lower l r k * (lower l c k * x c) +
        if c = j then (if r = j then remainder l j j * x j else 0) else 0 := by
    intro c hc
    rw [h.get_eq hsymm hj hr (Nat.le_of_lt_succ (mem_range.1 hc)), add_mul, sum_mul]
    congr 1
    · exact sum_congr rfl fun k _ => mul_assoc _ _ _
    · by_cases hcj : c = j <;> by_cases hrj : r = j <;> simp [hcj, hrj]
  rw [Mat.lhs, hcols, sum_range_of_vanishing hj hx, sum_congr rfl hentry, sum_add_distrib, sum_comm,
    sum_ite_eq', if_pos (mem_range.2 (Nat.lt_succ_self j))]
  congr 1
  exact sum_congr rfl fun k _ => (mul_sum _ _ _).symm

/-- At a point whose coordinates after `j` vanish, the quadratic form is the sum of the squares that
the columns before `j` account for and of what the remainder adds. -/
theorem Factored.bilin_eq (h : Factored a l n j) (hsymm : a.IsSymm) (hrows : a.rows = n)
    (hcols : a.cols = n) (hj : j < n) {x : ℕ → K} (hx : ∀ i, j < i → x i = 0) :
    a.bilin x x = ∑ k ∈ range j, (∑ c ∈ range (j + 1), lower l c k * x c) ^ 2 +
      remainder l j j * x j ^ 2 := by
  have hrow : ∀ r ∈ range (j + 1), a.lhs r x * x r =
      ∑ k ∈ range j, lower l r k * x r * ∑ c ∈ range (j + 1), lower l c k * x c +
        if r = j then remainder l j j * x j ^ 2 else 0 := by
    intro r hr
    rw [h.lhs_of_vanishing hsymm hcols hj hx (Nat.le_of_lt_succ (mem_range.1 hr)), add_mul, sum_mul]
    congr 1
    · exact sum_congr rfl fun k _ => by ring
    · by_cases hrj : r = j
      · rw [if_pos hrj, if_pos hrj, hrj]
        ring
      · rw [if_neg hrj, if_neg hrj, zero_mul]
  have hform : a.bilin x x = ∑ r ∈ range n, a.lhs r x * x r := by
    rw [Mat.bilin, hrows]
    exact sum_congr rfl fun r _ => mul_comm _ _
  rw [hform, sum_range_of_vanishing hj hx, sum_congr rfl hrow, sum_add_distrib, sum_comm,
    sum_ite_eq', if_pos (mem_range.2 (Nat.lt_succ_self j))]
  congr 1
  exact sum_congr rfl fun k _ => by rw [← sum_mul, sq]

/-- The columns before `j` combine to a point whose value is the remainder. -/
theorem Factored.exists_bilin_eq (h : Factored a l n j) (hsymm : a.IsSymm) (hrows : a.rows = n)
    (hcols : a.cols = n) (hj : j < n) : ∃ x : ℕ → K, x j = 1 ∧ a.bilin x x = remainder l j j := by
  obtain ⟨x, hat, hafter, hzero⟩ := Triangular.exists_combination (u := fun k c => l.get c k)
    (k := j) fun t ht => (h.diag_pos t ht).ne'
  refine ⟨x, hat, ?_⟩
  have hsquares : ∀ k ∈ range j, (∑ c ∈ range (j + 1), lower l c k * x c) ^ 2 = 0 := by
    intro k hk
    have hk := mem_range.1 hk
    rw [sum_lower_mul' l (show k < j + 1 by omega), hzero k hk, sq, mul_zero]
  rw [h.bilin_eq hsymm hrows hcols hj hafter, sum_eq_zero hsquares, hat]
  ring

theorem Factored.remainder_pos (h : Factored a l n j) (hsymm : a.IsSymm) (hrows : a.rows = n)
    (hcols : a.cols = n) (hj : j < n) (hdefinite : a.IsPosDef) : 0 < remainder l j j := by
  obtain ⟨x, hat, hvalue⟩ := h.exists_bilin_eq hsymm hrows hcols hj
  rw [← hvalue]
  exact hdefinite x ⟨j, hj.trans_eq hrows.symm, by rw [hat]; exact one_ne_zero⟩

/-! ## The factorisation -/

/-- The entries on and below the diagonal. -/
def lowerTriangle (w : Mat K) (n : ℕ) : Matrix (Fin n) (Fin n) K :=
  .of fun i j => if j ≤ i then w.get i j else 0

/-- The lower triangle of `w` is the factor of the matrix `s` of size `n`. -/
structure IsFactor (s w : Mat K) (n : ℕ) : Prop where
  diag_pos : ∀ i, 0 < lowerTriangle w n i i
  /-- `L Lᵀ = S` -/
  product : lowerTriangle w n * (lowerTriangle w n)ᵀ = s.toMatrix n n

theorem Factored.isFactor {s : Mat K} (h : Factored s l n n) (hsymm : s.IsSymm) :
    IsFactor s l n := by
  refine ⟨fun i => ?_, ?_⟩
  · rw [lowerTriangle, of_apply, if_pos le_rfl]
    exact h.diag_pos i i.isLt
  · ext r c
    calc (lowerTriangle l n * (lowerTriangle l n)ᵀ) r c
        = ∑ k ∈ range n, lower l r k * lower l c k :=
          Fin.sum_univ_eq_sum_range (fun k => lower l r k * lower l c k) n
      _ = s.get r c := h.sum_lower_mul_lower hsymm r.isLt c.isLt (Or.inl r.isLt)

variable [IsStrictOrderedRing K] [ExactRoots K]

theorem decompose_cases {s : Mat K} {relative : K} (hshape : s.shape = .general n n)
    (hrelative : 0 ≤ relative) :
    let e := decompose s relative
    (e.complete = true ∧ Factored s e.matrix n n) ∨
      e.complete = false ∧ ∃ k l, k < n ∧ Factored s l n k ∧
        remainder l k k ≤ relative * diagonalScale s := by
  have hrows : s.rows = n := by rw [Mat.rows, hshape]; rfl
  have hstart : Factored s s n 0 :=
    ⟨hshape, fun c hc => absurd hc (Nat.not_lt_zero c), fun c hc => absurd hc (Nat.not_lt_zero c),
      fun r c _ => rfl⟩
  rw [decompose, List.range_eq_range', hrows]
  exact hstart.columns_cases (mul_nonneg hrelative (diagonalScale_nonneg s)) n (Nat.zero_add n)

theorem complete_iff_isPosDef {s : Mat K} (hshape : s.shape = .general n n) (hsymm : s.IsSymm) :
    (decompose s (0 : K)).complete = true ↔ s.IsPosDef := by
  have hrows : s.rows = n := by rw [Mat.rows, hshape]; rfl
  have hcols : s.cols = n := by rw [Mat.cols, hshape]; rfl
  rcases decompose_cases hshape (le_refl (0 : K)) with
    ⟨hcomplete, hfactored⟩ | ⟨hstopped, k, l, hk, hfactored, hsmall⟩
  · exact iff_of_true hcomplete (hfactored.isPosDef hsymm hrows hcols)
  · refine iff_of_false (by rw [hstopped]; exact Bool.false_ne_true) fun hdefinite => ?_
    rw [zero_mul] at hsmall
    exact absurd (hfactored.remainder_pos hsymm hrows hcols hk hdefinite) (not_lt.2 hsmall)

/-- A complete factorisation of a symmetric matrix leaves its factor, the matrix is positive
definite and substitution solves its systems. Without a threshold the factorisation is complete just
for the positive definite matrices. For any scalars, what stands above the diagonal stays as it is
and has no influence on the factorisation and on substitution. -/
theorem decompose_factor {α : Type} [Scalar α] :
    (∀ (n : ℕ) (s : Mat K) (relative : K), s.shape = .general n n → s.IsSymm → 0 ≤ relative →
      let e := decompose s relative
      (e.complete = true → IsFactor s e.matrix n ∧ s.IsPosDef ∧ ∀ b : Mat K, b.rows = n →
        (b.mapColumns (substitute e.matrix)).size = b.size ∧
          s.toMatrix n n * (b.mapColumns (substitute e.matrix)).toMatrix n b.cols =
            b.toMatrix n b.cols) ∧
        (relative = 0 → (e.complete = true ↔ s.IsPosDef))) ∧
    ∀ (n : ℕ) (a b : Mat α) (relative : α), SameLower a b n →
      (∀ r c, r < c → (decompose a relative).matrix.get r c = a.get r c) ∧
      (decompose a relative).complete = (decompose b relative).complete ∧
      SameLower (decompose a relative).matrix (decompose b relative).matrix n ∧
      ∀ v : Mat α, v.mapColumns (substitute a) = v.mapColumns (substitute b) := by
  constructor
  · intro n s relative hshape hsymm hrelative
    have hrows : s.rows = n := by rw [Mat.rows, hshape]; rfl
    have hcols : s.cols = n := by rw [Mat.cols, hshape]; rfl
    refine ⟨fun hcomplete => ?_, ?_⟩
    · rcases decompose_cases hshape hrelative with ⟨-, hfactored⟩ | ⟨hstopped, -⟩
      · refine ⟨hfactored.isFactor hsymm, hfactored.isPosDef hsymm hrows hcols, fun b hb => ?_⟩
        refine ⟨Mat.size_mapColumns _ b, Mat.toMatrix_mul_mapColumns hcols hb fun v _ r hr => ?_⟩
        exact hfactored.lhs_substitute hsymm hcols v hr
      · rw [hstopped] at hcomplete
        cases hcomplete
    · rintro rfl
      exact complete_iff_isPosDef hshape hsymm
  · intro n a b relative hsame
    obtain ⟨hcomplete, hlower⟩ := hsame.decompose relative
    refine ⟨fun r c hrc => get_columns_above _ hsame.left _ hrc, hcomplete, hlower, fun v => ?_⟩
    rw [funext hsame.substitute]

/-! ## A sample -/

/-- The packed matrix of `(x + y)² + y²`. -/
noncomputable def squaresPacked : Mat ℝ := ⟨.packed 2, #[1, 1, 1 + 1], rfl⟩

/-- Two right-hand sides. -/
noncomputable def squaresBounds : Mat ℝ := ⟨.general 2 2, #[1, 1, 0, 1], rfl⟩

/-- The unit matrix but for its corner above the diagonal. -/
def spoiledCorner (corner : Lossy) : Mat Lossy :=
  ⟨.general 2 2, #[.num 1, .num 0, corner, .num 1], rfl⟩

theorem isSymm_squaresPacked :
    letI := Exact.real 1000
    squaresPacked.toGeneral.IsSymm := by
  let := Exact.real 1000
  intro i j
  rw [Mat.get_toGeneral, Mat.get_toGeneral, Mat.get_comm_of_packed (n := 2) rfl]

theorem isPosDef_squaresPacked :
    letI := Exact.real 1000
    squaresPacked.toGeneral.IsPosDef := by
  let := Exact.real 1000
  rintro x ⟨i, hi, hne⟩
  have hform : squaresPacked.toGeneral.bilin x x = (x 0 + x 1) ^ 2 + x 1 ^ 2 := by
    have hget : ∀ r c, squaresPacked.toGeneral.get r c = squaresPacked.get r c :=
      Mat.get_toGeneral _
    have h00 : squaresPacked.get 0 0 = 1 := rfl
    have h01 : squaresPacked.get 0 1 = 1 := rfl
    have h10 : squaresPacked.get 1 0 = 1 := rfl
    have h11 : squaresPacked.get 1 1 = 1 + 1 := rfl
    have hrows : squaresPacked.toGeneral.rows = 2 := rfl
    have hcols : squaresPacked.toGeneral.cols = 2 := rfl
    simp only [Mat.bilin, Mat.lhs, hrows, hcols, hget, sum_range_succ, sum_range_zero, h00, h01,
      h10, h11]
    ring
  have hpoint : x 0 ≠ 0 ∨ x 1 ≠ 0 := by
    have hi : i < 2 := hi
    interval_cases i
    · exact Or.inl hne
    · exact Or.inr hne
  rw [hform]
  by_cases hy : x 1 = 0
  · have := hpoint.resolve_right (not_not.2 hy)
    rw [hy, add_zero]
    positivity
  · positivity

theorem sameLower_spoiledCorner (u v : Lossy) :
    SameLower (spoiledCorner u) (spoiledCorner v) 2 := by
  refine ⟨rfl, rfl, fun r c hcr => ?_⟩
  by_cases hr : r < 2
  · interval_cases r <;> interval_cases c <;> rfl
  · have houtside : ∀ w, (spoiledCorner w).get r c = 0 := fun w =>
      Mat.get_of_not_contains fun h => hr h.1
    rw [houtside, houtside]

theorem decompose_factor_squaresPacked :
    letI := Exact.real 1000
    let e := decompose squaresPacked.toGeneral (0 : ℝ)
    let x := squaresBounds.mapColumns (substitute e.matrix)
    let l := decompose (spoiledCorner .nan) (.num 0)
    e.complete = true ∧ IsFactor squaresPacked.toGeneral e.matrix 2 ∧
      squaresPacked.toGeneral.toMatrix 2 2 * x.toMatrix 2 2 = squaresBounds.toMatrix 2 2 ∧
      l.matrix.get 0 1 = .nan ∧
      l.complete = (decompose (spoiledCorner (.num 0)) (.num 0)).complete := by
  let := Exact.real 1000
  have := ExactRoots.real 1000
  obtain ⟨hexact, hlossy⟩ := decompose_factor (K := ℝ) (α := Lossy)
  obtain ⟨hfactor, hcomplete⟩ := hexact 2 squaresPacked.toGeneral 0 rfl isSymm_squaresPacked le_rfl
  have hcomplete := (hcomplete rfl).2 isPosDef_squaresPacked
  obtain ⟨hproduct, -, hsolve⟩ := hfactor hcomplete
  obtain ⟨habove, hresult, -, -⟩ := hlossy 2 _ _ (.num 0)
    (sameLower_spoiledCorner .nan (.num 0))
  exact ⟨hcomplete, hproduct, (hsolve squaresBounds rfl).2, habove 0 1 Nat.one_pos, hresult⟩

end Cholesky

end QuadProg
