import QuadProg.Proofs.Factor.LU
import QuadProg.Proofs.Mat.Dense

/-!
# The factors of a regular matrix

A complete elimination leaves a unit lower and an upper triangle whose product is the given matrix
with its rows exchanged. Each exchange brings up a row from further down, and since it brings up the
largest entry of its column, no multiplier is larger than one. The factors solve the systems of the
matrix for any number of right-hand sides. Without a threshold they exist for every regular matrix.
-/

namespace QuadProg

open Finset Matrix

namespace LU

variable {K : Type} [Field K] [LinearOrder K] [Exact K]

/-! ## The triangles -/

/-- The entries below the diagonal, above a diagonal of ones. -/
def unitLower (w : Mat K) (n : ℕ) : Matrix (Fin n) (Fin n) K :=
  .of fun i j => if j < i then w.get i j else if j = i then 1 else 0

/-- The entries on and above the diagonal. -/
def upperTriangle (w : Mat K) (n : ℕ) : Matrix (Fin n) (Fin n) K :=
  .of fun i j => if i ≤ j then w.get i j else 0

/-- The matrix with its rows exchanged in turn, the row `k` with the row `pivots[k]`. -/
def exchanged (g : Mat K) (pivots : Array ℕ) : Mat K :=
  (List.range g.rows).foldl (fun a k => a.swapRows k (pivots.getD k k)) g

/-- The exchanges `pivots` and the factors left in `w` are those of the matrix `g` of size `n`. -/
structure IsFactored (g w : Mat K) (pivots : Array ℕ) (n : ℕ) : Prop where
  size_pivots : pivots.size = n
  /-- A row is exchanged with itself or with one further down. -/
  exchange : ∀ k (hk : k < pivots.size), k ≤ pivots[k] ∧ pivots[k] < n
  /-- `L U = P G` -/
  product : unitLower w n * upperTriangle w n = (exchanged g pivots).toMatrix n n
  abs_le_one : ∀ i j, |unitLower w n i j| ≤ 1

section Exchanges

variable {g w : Mat K} {pivots : Array ℕ} {n : ℕ}

theorem get_foldl_swapRows (hshape : g.shape = .general n n) {k : ℕ} (hk : k ≤ n)
    (hpivots : ∀ t < k, pivots.getD t t < n) {i j : ℕ} (hi : i < n) (hj : j < n) :
    ((List.range k).foldl (fun a k => a.swapRows k (pivots.getD k k)) g).get i j =
      g.get (order pivots k i) j := by
  have hkept : ∀ m, ((List.range m).foldl
      (fun a k => a.swapRows k (pivots.getD k k)) g).shape = .general n n := by
    intro m
    induction m with
    | zero => exact hshape
    | succ m ih =>
      rw [List.range_succ, List.foldl_append]
      exact ih
  induction k generalizing i with
  | zero => rfl
  | succ k ih =>
    have hswap : Equiv.swap k (pivots.getD k k) i < n := by
      have := hpivots k (Nat.lt_succ_self k)
      rw [Equiv.swap_apply_def]
      split_ifs <;> omega
    rw [List.range_succ, List.foldl_append, List.foldl_cons, List.foldl_nil,
      Mat.get_swapRows (hkept k) hi hj,
      ih (by omega) (fun t ht => hpivots t (by omega)) hswap, order, Equiv.Perm.mul_apply]

/-- A row of the factors: the rows of the upper triangle, weighted by the multipliers. -/
theorem unitLower_mul_upperTriangle (w : Mat K) (i j : Fin n) :
    (unitLower w n * upperTriangle w n) i j =
      ∑ t ∈ range i, w.get i t * upper w t j + upper w i j := by
  let lower : ℕ → K := fun t => if t < i then w.get i t else if t = i then 1 else 0
  have hsum : (unitLower w n * upperTriangle w n) i j =
      ∑ t ∈ range n, lower t * upper w t j := by
    rw [mul_apply, ← Fin.sum_univ_eq_sum_range (fun t => lower t * upper w t j) n]
    refine sum_congr rfl fun t _ => ?_
    simp only [unitLower, upperTriangle, of_apply, lower, upper, Fin.lt_def, Fin.le_def,
      Fin.ext_iff]
  have hbefore : ∀ t ∈ range i, lower t * upper w t j = w.get i t * upper w t j := by
    intro t ht
    simp only [lower]
    rw [if_pos (mem_range.1 ht)]
  have hat : lower i = 1 := by simp [lower]
  have hafter : ∀ t ∈ Ico ((i : ℕ) + 1) n, lower t * upper w t j = 0 := by
    intro t ht
    have ht := mem_Ico.1 ht
    simp only [lower]
    rw [if_neg (by omega), if_neg (by omega), zero_mul]
  rw [hsum, ← sum_range_add_sum_Ico _ (Nat.succ_le_of_lt i.isLt), sum_range_succ,
    sum_congr rfl hbefore, hat, one_mul, sum_eq_zero hafter, add_zero]

theorem Eliminated.product_eq (h : Eliminated g w pivots n n) (hshape : g.shape = .general n n) :
    unitLower w n * upperTriangle w n = (exchanged g pivots).toMatrix n n := by
  have hrows : g.rows = n := by rw [Mat.rows, hshape]; rfl
  ext i j
  have hentry := h.product i i.isLt j j.isLt
  rw [show min (i : ℕ) n = i by omega] at hentry
  rw [unitLower_mul_upperTriangle, Mat.toMatrix, of_apply, exchanged, hrows,
    get_foldl_swapRows hshape le_rfl h.pivots_lt i.isLt j.isLt, hentry, upper]

end Exchanges

/-! ## The size of the multipliers -/

/-- In the columns before `k` rows were exchanged with rows further down, and no multiplier is
larger than one. -/
structure Graded (w : Mat K) (pivots : Array ℕ) (n k : ℕ) : Prop where
  le_pivot : ∀ t < k, t ≤ pivots.getD t t
  abs_le_one : ∀ t < k, ∀ i, t < i → i < n → |w.get i t| ≤ 1

section Multipliers

variable [IsStrictOrderedRing K] {w : Mat K} {pivots : Array ℕ} {n k : ℕ}

theorem Graded.step (h : Graded w pivots n k) (hshape : w.shape = .general n n)
    (hsize : pivots.size = n) {p : ℕ} (hkp : k ≤ p) (hp : p < n)
    (hmax : ∀ i, k ≤ i → i < n → |w.get i k| ≤ |w.get p k|) :
    Graded (eliminate (w.swapRows k p) k) (pivots.setIfInBounds k p) n (k + 1) := by
  have hswapped : (w.swapRows k p).shape = .general n n := hshape
  have hk : k < n := by omega
  refine ⟨fun t ht => ?_, fun t ht i hti hi => ?_⟩
  · have hlt : t < pivots.size := by omega
    rcases Nat.eq_or_lt_of_le (Nat.le_of_lt_succ ht) with rfl | htk
    · simpa [Array.getD, hlt] using hkp
    · have := h.le_pivot t htk
      simpa [Array.getD, hlt, show k ≠ t by omega] using this
  · have hswap : k ≤ i → k ≤ Equiv.swap k p i ∧ Equiv.swap k p i < n := by
      intro hki
      rw [Equiv.swap_apply_def]
      split_ifs <;> omega
    rcases Nat.eq_or_lt_of_le (Nat.le_of_lt_succ ht) with rfl | htk
    · have hle := hmax _ (hswap hti.le).1 (hswap hti.le).2
      rw [get_eliminate_multiplier hswapped hti hi, Mat.get_swapRows hshape hi hk,
        Mat.get_swapRows hshape hk hk, Equiv.swap_apply_left, abs_div]
      exact div_le_one_of_le₀ hle (abs_nonneg _)
    · rw [get_eliminate_of_le hswapped hi (by omega) (Or.inr htk),
        Mat.get_swapRows hshape hi (by omega)]
      have hrange : t < Equiv.swap k p i ∧ Equiv.swap k p i < n := by
        rw [Equiv.swap_apply_def]
        split_ifs <;> omega
      exact h.abs_le_one t htk _ hrange.1 hrange.2

theorem Graded.columns {threshold : K} (m : ℕ) (h : Graded w pivots n k)
    (hshape : w.shape = .general n n) (hsize : pivots.size = n) (hm : k + m = n)
    (hcomplete : (columns threshold (List.range' k m) w pivots).complete = true) :
    let e := columns threshold (List.range' k m) w pivots
    Graded e.matrix e.pivots n n := by
  induction m generalizing k w pivots with
  | zero =>
    obtain rfl : k = n := by omega
    exact h
  | succ m ih =>
    have hrows : w.rows = n := by rw [Mat.rows, hshape]; rfl
    obtain ⟨hge, hlt, hmag, hall⟩ := Mat.pivotFrom_spec (a := w) (c := k)
      (show k < w.rows by omega)
    rw [hrows] at hlt hall
    rw [List.range'_succ, LU.columns] at hcomplete ⊢
    dsimp only at hcomplete ⊢
    split at hcomplete
    · next hpivot =>
      rw [if_pos hpivot]
      refine ih (h.step hshape hsize hge hlt fun i hi hin => ?_) hshape
        (Array.size_setIfInBounds.trans hsize) (by omega) hcomplete
      rw [← hmag]
      exact hall i hi hin
    · cases hcomplete

end Multipliers

/-! ## The factorisation -/

section Decompose

variable [IsStrictOrderedRing K] {g : Mat K} {pivots : Array ℕ} {relative : K} {n : ℕ}

omit [IsStrictOrderedRing K] in
theorem eliminated_self (hshape : g.shape = .general n n) (hpivots : pivots.size = n) :
    Eliminated g g pivots n 0 := by
  refine ⟨hshape, hpivots, fun t ht => absurd ht (Nat.not_lt_zero t),
    fun t ht => absurd ht (Nat.not_lt_zero t), ?_⟩
  intro i _ j _
  rw [Nat.min_zero, range_zero, sum_empty, if_pos (Nat.zero_le j), zero_add]
  rfl

/-- The factorisation is complete and leaves factors, or it stops at a column whose remaining
entries are within the threshold. -/
theorem decompose_cases (hshape : g.shape = .general n n) (hpivots : pivots.size = n)
    (hrelative : 0 ≤ relative) :
    let e := decompose g pivots relative
    (e.complete = true ∧ Eliminated g e.matrix e.pivots n n ∧ Graded e.matrix e.pivots n n) ∨
      e.complete = false ∧ ∃ k w pivots', k < n ∧ Eliminated g w pivots' n k ∧
        ∀ i, k ≤ i → i < n → |w.get i k| ≤ relative * g.maxAbs := by
  have hrows : g.rows = n := by rw [Mat.rows, hshape]; rfl
  have hstart : Graded g pivots n 0 :=
    ⟨fun t ht => absurd ht (Nat.not_lt_zero t), fun t ht => absurd ht (Nat.not_lt_zero t)⟩
  rw [decompose, List.range_eq_range', hrows]
  rcases (eliminated_self hshape hpivots).columns (mul_nonneg hrelative (maxAbs_nonneg g)) n
    (Nat.zero_add n) with ⟨hcomplete, he⟩ | hstopped
  · exact Or.inl ⟨hcomplete, he, hstart.columns n hshape hpivots (Nat.zero_add n) hcomplete⟩
  · exact Or.inr hstopped

theorem IsFactored.of_eliminated {w : Mat K} (h : Eliminated g w pivots n n)
    (hgraded : Graded w pivots n n) (hshape : g.shape = .general n n) :
    IsFactored g w pivots n := by
  refine ⟨h.size_pivots, fun k hk => ?_, h.product_eq hshape, fun i j => ?_⟩
  · have hread : pivots.getD k k = pivots[k] := by
      rw [Array.getD, dif_pos hk]
      rfl
    have hkn : k < n := hk.trans_eq h.size_pivots
    rw [← hread]
    exact ⟨hgraded.le_pivot k hkn, h.pivots_lt k hkn⟩
  · rw [unitLower, of_apply]
    split_ifs with hlt heq
    · exact hgraded.abs_le_one j j.isLt i hlt i.isLt
    · exact abs_one.le
    · exact abs_zero.trans_le zero_le_one

omit [IsStrictOrderedRing K] in
theorem Eliminated.solve_total {w : Mat K} (h : Eliminated g w pivots n n) (hcols : g.cols = n)
    {b : Mat K} (hb : b.rows = n) :
    ∃ x, (⟨w, pivots⟩ : Factors K).solve? b = .ok x ∧ x.size = b.size ∧
      g.toMatrix n n * x.toMatrix n b.cols = b.toMatrix n b.cols := by
  have hrows : w.rows = n := by rw [Mat.rows, h.shape]; rfl
  have hrange : ∀ p ∈ pivots, p < w.rows := by
    intro p hp
    obtain ⟨k, hk, rfl⟩ := Array.mem_iff_getElem.1 hp
    have hlt := h.pivots_lt k (hk.trans_eq h.size_pivots)
    rw [Array.getD, dif_pos hk] at hlt
    exact hlt.trans_eq hrows.symm
  refine ⟨b.mapColumns (Factors.solveVec ⟨w, pivots⟩), ?_, Mat.size_mapColumns _ b, ?_⟩
  · refine Checked.bind_eq_ok_iff.2 ⟨(), require_eq_ok ⟨hb.trans hrows.symm, ?_⟩,
      guarded_eq_ok (Or.inr hrange)⟩
    exact h.size_pivots.trans hrows.symm
  · exact Mat.toMatrix_mul_mapColumns hcols hb fun v hv r hr => h.lhs_solveVec hcols hv hr

theorem complete_iff_det_ne_zero (hshape : g.shape = .general n n) (hpivots : pivots.size = n) :
    (decompose g pivots (0 : K)).complete = true ↔ (g.toMatrix n n).det ≠ 0 := by
  have hcols : g.cols = n := by rw [Mat.cols, hshape]; rfl
  rw [Ne, Mat.det_toMatrix_eq_zero_iff hcols]
  rcases decompose_cases hshape hpivots (le_refl (0 : K)) with
    ⟨hcomplete, he, -⟩ | ⟨hstopped, k, w, pivots', hk, he, hsmall⟩
  · refine iff_of_true hcomplete ?_
    rintro ⟨v, ⟨i, hi, hne⟩, hv⟩
    exact hne (he.eq_zero hcols hv i hi)
  · refine iff_of_false (by rw [hstopped]; exact Bool.false_ne_true) fun hregular => hregular ?_
    have hzero : ∀ i, k ≤ i → i < n → w.get i k = 0 := by
      intro i hki hi
      have := hsmall i hki hi
      rw [zero_mul] at this
      exact abs_nonpos_iff.1 this
    obtain ⟨v, hv, hkernel⟩ := he.exists_kernel hcols hk hzero
    exact ⟨v, ⟨k, hk, hv⟩, hkernel⟩

/-- A complete factorisation leaves the factors of the matrix, whose multipliers are at most one and
whose exchanges go down, and they solve its systems. Without a threshold the factorisation is
complete just for the regular matrices. -/
theorem decompose_factors (hshape : g.shape = .general n n) (hpivots : pivots.size = n)
    (hrelative : 0 ≤ relative) :
    let e := decompose g pivots relative
    (e.complete = true → IsFactored g e.matrix e.pivots n ∧
      ∀ b : Mat K, b.rows = n → ∃ x, (⟨e.matrix, e.pivots⟩ : Factors K).solve? b = .ok x ∧
        x.size = b.size ∧ g.toMatrix n n * x.toMatrix n b.cols = b.toMatrix n b.cols) ∧
      (relative = 0 → (e.complete = true ↔ (g.toMatrix n n).det ≠ 0)) := by
  have hcols : g.cols = n := by rw [Mat.cols, hshape]; rfl
  constructor
  · intro hcomplete
    rcases decompose_cases hshape hpivots hrelative with ⟨-, he, hgraded⟩ | ⟨hstopped, -⟩
    · exact ⟨.of_eliminated he hgraded hshape, fun b hb => he.solve_total hcols hb⟩
    · rw [hstopped] at hcomplete
      cases hcomplete
  · rintro rfl
    exact complete_iff_det_ne_zero hshape hpivots

end Decompose

/-! ## A sample -/

/-- A regular matrix that cannot be eliminated without an exchange. -/
def crossSample : Mat ℚ := ⟨.general 3 3, #[0, 1, 4, 2, 1, 0, 1, 0, 2], rfl⟩

/-- Two right-hand sides. -/
def crossBounds : Mat ℚ := ⟨.general 3 2, #[1, 0, 2, 0, 5, 1], rfl⟩

theorem decompose_factors_crossSample :
    letI := Exact.rational 1000
    let e := decompose crossSample #[7, 7, 7] 0
    (e.complete = true ∧ e.pivots = #[2, 2, 2]) ∧ IsFactored crossSample e.matrix e.pivots 3 ∧
      (∃ x, (⟨e.matrix, e.pivots⟩ : Factors ℚ).solve? crossBounds = .ok x ∧
        crossSample.toMatrix 3 3 * x.toMatrix 3 2 = crossBounds.toMatrix 3 2) ∧
      (crossSample.toMatrix 3 3).det ≠ 0 := by
  let := Exact.rational 1000
  have hcomplete : (decompose crossSample #[7, 7, 7] 0).complete = true := by decide +kernel
  have hpivots : #[7, 7, 7].size = 3 := rfl
  obtain ⟨hfactors, hregular⟩ := decompose_factors (n := 3) (g := crossSample) rfl hpivots
    (le_refl (0 : ℚ))
  obtain ⟨hfactored, hsolve⟩ := hfactors hcomplete
  obtain ⟨x, hx, -, hproduct⟩ := hsolve crossBounds rfl
  exact ⟨⟨hcomplete, by decide +kernel⟩, hfactored, ⟨x, hx, hproduct⟩, (hregular rfl).1 hcomplete⟩

end LU

end QuadProg
