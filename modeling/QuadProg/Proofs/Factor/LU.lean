import QuadProg.Factor.LU
import QuadProg.Proofs.Factor.Triangular

/-!
# LU factors

While columns are eliminated, the rows of the given matrix in their new order are sums of the rows
of the upper triangle, weighted by the multipliers kept below it, and of what is not yet eliminated
(`Product`). At the end substitution solves the systems of the matrix. If a column has no pivot but
zero, the columns before it combine to it, so that the matrix maps a point other than zero to zero.
-/

namespace QuadProg

open Finset

variable {K : Type} [Field K] [LinearOrder K] [Exact K]

/-! ## The pivot of a column -/

namespace Mat

variable {a : Mat K} {c : ℕ}

theorem preferRow_cases (a : Mat K) (c : ℕ) (best : Pivot K) (i : ℕ) :
    (a.preferRow c best i = ⟨i, |a.get i c|⟩ ∧ best.magnitude < |a.get i c|) ∨
      (a.preferRow c best i = best ∧ |a.get i c| ≤ best.magnitude) := by
  unfold preferRow
  dsimp only [Scalar.abs_eq_abs]
  split
  · next h => exact Or.inl ⟨rfl, h⟩
  · next h => exact Or.inr ⟨rfl, not_lt.1 h⟩

/-- A scan for a pivot ends with the row of the largest magnitude met. -/
theorem foldl_preferRow (is : List ℕ) (best : Pivot K)
    (hbest : best.magnitude = |a.get best.row c|) :
    let p := is.foldl (a.preferRow c) best
    p.magnitude = |a.get p.row c| ∧ (p.row = best.row ∨ p.row ∈ is) ∧
      best.magnitude ≤ p.magnitude ∧ ∀ i ∈ is, |a.get i c| ≤ p.magnitude := by
  induction is generalizing best with
  | nil => exact ⟨hbest, Or.inl rfl, le_rfl, fun i hi => absurd hi List.not_mem_nil⟩
  | cons j rest ih =>
    dsimp only [List.foldl_cons]
    rcases preferRow_cases a c best j with ⟨hj, hlt⟩ | ⟨hj, hle⟩
    · rw [hj]
      obtain ⟨hmag, hrow, hge, hall⟩ := ih ⟨j, |a.get j c|⟩ rfl
      refine ⟨hmag, Or.inr ?_, hlt.le.trans hge, ?_⟩
      · rcases hrow with hrow | hrow
        · exact List.mem_cons.2 (Or.inl hrow)
        · exact List.mem_cons.2 (Or.inr hrow)
      · intro i hi
        rcases List.mem_cons.1 hi with rfl | hi
        · exact hge
        · exact hall i hi
    · rw [hj]
      obtain ⟨hmag, hrow, hge, hall⟩ := ih best hbest
      refine ⟨hmag, ?_, hge, ?_⟩
      · rcases hrow with hrow | hrow
        · exact Or.inl hrow
        · exact Or.inr (List.mem_cons.2 (Or.inr hrow))
      · intro i hi
        rcases List.mem_cons.1 hi with rfl | hi
        · exact hle.trans hge
        · exact hall i hi

/-- The pivot lies on or below the start, and no entry from there on is larger. -/
theorem pivotFrom_spec {start : ℕ} (hstart : start < a.rows) :
    let p := a.pivotFrom start c
    start ≤ p.row ∧ p.row < a.rows ∧ p.magnitude = |a.get p.row c| ∧
      ∀ i, start ≤ i → i < a.rows → |a.get i c| ≤ p.magnitude := by
  obtain ⟨hmag, hrow, hge, hall⟩ := foldl_preferRow (a := a) (c := c)
    (List.range' (start + 1) (a.rows - start - 1)) ⟨start, Scalar.abs (a.get start c)⟩ rfl
  refine ⟨?_, ?_, hmag, ?_⟩
  · rcases hrow with hrow | hrow
    · exact hrow.ge
    · exact Nat.le_of_succ_le (List.mem_range'_1.1 hrow).1
  · rcases hrow with hrow | hrow
    · exact hrow.trans_lt hstart
    · exact (List.mem_range'_1.1 hrow).2.trans_le (by omega)
  · intro i hi hlt
    rcases Nat.eq_or_lt_of_le hi with rfl | hgt
    · exact hge
    · exact hall i (List.mem_range'_1.2 ⟨hgt, by omega⟩)

theorem get_swapRows {nr nc i j r k : ℕ} (hshape : a.shape = .general nr nc) (hr : r < nr)
    (hk : k < nc) : (a.swapRows i j).get r k = a.get (Equiv.swap i j r) k := by
  rw [swapRows, get_ofFn_of_shape _ hshape hr hk, Equiv.swap_apply_def]

end Mat

namespace LU

/-! ## Elimination -/

/-- The upper triangle of the matrix. -/
def upper (w : Mat K) (t j : ℕ) : K := if t ≤ j then w.get t j else 0

/-- The rows of `g` in the order `σ` are combined from the rows of the upper triangle of `w` before
`k` and what `w` holds from the column `k` on. -/
def Product (g w : Mat K) (σ : ℕ → ℕ) (n k : ℕ) : Prop :=
  ∀ i < n, ∀ j < n, g.get (σ i) j =
    ∑ t ∈ range (min i k), w.get i t * upper w t j + if min i k ≤ j then w.get i j else 0

section Elimination

variable {g w : Mat K} {σ : ℕ → ℕ} {n k : ℕ}

theorem min_swap {p : ℕ} (hkp : k ≤ p) (i : ℕ) : min (Equiv.swap k p i) k = min i k := by
  rw [Equiv.swap_apply_def]
  split_ifs <;> omega

theorem swap_of_lt {p t : ℕ} (hkp : k ≤ p) (ht : t < k) : Equiv.swap k p t = t :=
  Equiv.swap_apply_of_ne_of_ne (by omega) (by omega)

theorem Product.swapRows (h : Product g w σ n k) (hshape : w.shape = .general n n) {p : ℕ}
    (hkp : k ≤ p) (hp : p < n) : Product g (w.swapRows k p) (σ ∘ Equiv.swap k p) n k := by
  intro i hi j hj
  have hs : Equiv.swap k p i < n := by
    rw [Equiv.swap_apply_def]
    split_ifs <;> omega
  have hrow := h (Equiv.swap k p i) hs j hj
  rw [min_swap hkp] at hrow
  rw [Function.comp_apply, hrow, Mat.get_swapRows hshape hi hj]
  congr 1
  refine sum_congr rfl fun t ht => ?_
  have ht := mem_range.1 ht
  rw [Mat.get_swapRows hshape hi (by omega), upper, upper, Mat.get_swapRows hshape (by omega) hj,
    swap_of_lt (t := t) hkp (by omega)]

theorem get_eliminate_of_le (hshape : w.shape = .general n n) {i j : ℕ} (hi : i < n) (hj : j < n)
    (h : i ≤ k ∨ j < k) : (eliminate w k).get i j = w.get i j := by
  rw [eliminate, Mat.get_ofFn_of_shape _ hshape hi hj]
  split
  · rw [if_neg (by omega), if_neg (by omega)]
  · rfl

theorem get_eliminate_multiplier (hshape : w.shape = .general n n) {i : ℕ} (hki : k < i)
    (hi : i < n) : (eliminate w k).get i k = w.get i k / w.get k k := by
  rw [eliminate, Mat.get_ofFn_of_shape _ hshape hi (by omega), if_pos hki, if_pos rfl]

theorem get_eliminate_right (hshape : w.shape = .general n n) {i j : ℕ} (hki : k < i) (hi : i < n)
    (hkj : k < j) (hj : j < n) :
    (eliminate w k).get i j = w.get i j - w.get i k / w.get k k * w.get k j := by
  rw [eliminate, Mat.get_ofFn_of_shape _ hshape hi hj, if_pos hki, if_neg (by omega), if_pos hkj]

/-- A column with a pivot on the diagonal may be eliminated: the multiples of the pivot's row that
are taken away are what the multipliers give back. -/
theorem Product.eliminate (h : Product g w σ n k) (hshape : w.shape = .general n n) (hk : k < n)
    (hpivot : w.get k k ≠ 0) : Product g (eliminate w k) σ n (k + 1) := by
  intro i hi j hj
  have hupper : ∀ t < k + 1, upper (LU.eliminate w k) t j = upper w t j := by
    intro t ht
    rw [upper, upper, get_eliminate_of_le hshape (by omega) hj (Or.inl (by omega))]
  rw [h i hi j hj]
  rcases Nat.lt_or_ge k i with hki | hik
  · have hsum : ∑ t ∈ range k, (LU.eliminate w k).get i t * upper (LU.eliminate w k) t j =
        ∑ t ∈ range k, w.get i t * upper w t j := by
      refine sum_congr rfl fun t ht => ?_
      have ht := mem_range.1 ht
      rw [hupper t (by omega), get_eliminate_of_le hshape hi (by omega) (Or.inr ht)]
    rw [show min i (k + 1) = k + 1 by omega, show min i k = k by omega, sum_range_succ, hsum,
      hupper k (by omega), get_eliminate_multiplier hshape hki hi, upper, add_assoc]
    congr 1
    rcases Nat.lt_trichotomy j k with hlt | rfl | hgt
    · rw [if_neg (by omega), if_neg (by omega), if_neg (by omega), mul_zero, add_zero]
    · rw [if_pos le_rfl, if_pos le_rfl, if_neg (by omega), add_zero, div_mul_cancel₀ _ hpivot]
    · rw [if_pos (by omega), if_pos (by omega), if_pos (by omega),
        get_eliminate_right hshape hki hi hgt hj]
      ring
  · rw [show min i (k + 1) = i by omega, show min i k = i by omega,
      get_eliminate_of_le hshape hi hj (Or.inl hik)]
    congr 1
    refine sum_congr rfl fun t ht => ?_
    have ht := mem_range.1 ht
    rw [hupper t (by omega), get_eliminate_of_le hshape hi (by omega) (Or.inl hik)]

end Elimination

/-! ## Exchanges -/

/-- The row that each place holds after the first `k` exchanges. -/
def order (pivots : Array ℕ) : ℕ → Equiv.Perm ℕ
  | 0 => 1
  | k + 1 => order pivots k * Equiv.swap k (pivots.getD k k)

section Order

variable {pivots : Array ℕ} {n k : ℕ}

theorem order_setIfInBounds (pivots : Array ℕ) (p : ℕ) {m k : ℕ} (hm : m ≤ k) :
    order (pivots.setIfInBounds k p) m = order pivots m := by
  induction m with
  | zero => rfl
  | succ m ih =>
    have hget : (pivots.setIfInBounds k p).getD m m = pivots.getD m m := by
      have hne : k ≠ m := by omega
      by_cases hlt : m < pivots.size <;> simp [Array.getD, hlt, hne]
    rw [order, order, ih (by omega), hget]

theorem order_of_ge (hk : k ≤ n) (hpivots : ∀ t < k, pivots.getD t t < n) {i : ℕ} (hi : n ≤ i) :
    order pivots k i = i := by
  induction k with
  | zero => rfl
  | succ k ih =>
    have hp := hpivots k (by omega)
    rw [order, Equiv.Perm.mul_apply, Equiv.swap_apply_of_ne_of_ne (by omega) (by omega)]
    exact ih (by omega) fun t ht => hpivots t (by omega)

/-- Every row is held by some place. -/
theorem exists_order_eq (hk : k ≤ n) (hpivots : ∀ t < k, pivots.getD t t < n) {r : ℕ} (hr : r < n) :
    ∃ i < n, order pivots k i = r := by
  refine ⟨(order pivots k).symm r, ?_, (order pivots k).apply_symm_apply r⟩
  by_contra hge
  have hself := order_of_ge hk hpivots (not_lt.1 hge)
  rw [(order pivots k).apply_symm_apply] at hself
  omega

omit [Field K] [LinearOrder K] [Exact K] in
theorem entry_swapIfInBounds [Scalar K] {x : Vec K} {i j : ℕ} (hi : i < x.size) (hj : j < x.size)
    (r : ℕ) : Vec.entry (x.swapIfInBounds i j) r = x.entry (Equiv.swap i j r) := by
  have hswap : x.swapIfInBounds i j = x.swap i j hi hj := by simp [Array.swapIfInBounds, hi, hj]
  rw [hswap, Equiv.swap_apply_def]
  simp only [Vec.entry, Array.getD_eq_getD_getElem?, Array.getElem?_swap]
  by_cases hri : r = i
  · subst hri
    by_cases hjr : j = r
    · subst hjr
      simp [hj]
    · simp [hjr, hj]
  · by_cases hrj : r = j
    · subst hrj
      simp [hri, hi]
    · simp [hri, hrj, Ne.symm hri, Ne.symm hrj]

/-- The right-hand side is exchanged like the rows. -/
theorem entry_foldl_swap {b : Vec K} (hk : k ≤ b.size) (hpivots : ∀ t < k, pivots.getD t t < b.size)
    (i : ℕ) :
    Vec.entry ((List.range k).foldl (fun x k => x.swapIfInBounds k (pivots.getD k k)) b) i =
      b.entry (order pivots k i) := by
  have hsize : ∀ m, ((List.range m).foldl
      (fun x k => x.swapIfInBounds k (pivots.getD k k)) b).size = b.size := by
    intro m
    induction m with
    | zero => rfl
    | succ m ih => rw [List.range_succ, List.foldl_append, List.foldl_cons, List.foldl_nil,
        Array.size_swapIfInBounds, ih]
  induction k generalizing i with
  | zero => rfl
  | succ k ih =>
    rw [List.range_succ, List.foldl_append, List.foldl_cons, List.foldl_nil,
      entry_swapIfInBounds (by rw [hsize]; omega) (by rw [hsize]; exact hpivots k (by omega)),
      ih (by omega) (fun t ht => hpivots t (by omega)), order, Equiv.Perm.mul_apply]

end Order

/-! ## Runs of the elimination -/

/-- The state of the elimination of `g` after `k` columns. -/
structure Eliminated (g w : Mat K) (pivots : Array ℕ) (n k : ℕ) : Prop where
  shape : w.shape = .general n n
  size_pivots : pivots.size = n
  pivots_lt : ∀ t < k, pivots.getD t t < n
  diag : ∀ t < k, w.get t t ≠ 0
  product : Product g w (order pivots k) n k

section Columns

variable {g w : Mat K} {pivots : Array ℕ} {n k : ℕ}

/-- One more column with a pivot that is not zero. -/
theorem Eliminated.step (h : Eliminated g w pivots n k) {p : ℕ} (hkp : k ≤ p) (hp : p < n)
    (hpivot : w.get p k ≠ 0) :
    Eliminated g (eliminate (w.swapRows k p) k) (pivots.setIfInBounds k p) n (k + 1) := by
  have hk : k < n := by omega
  have hswapped : (w.swapRows k p).shape = .general n n := h.shape
  have hset : ∀ t, t ≤ k → (pivots.setIfInBounds k p).getD t t =
      if t = k then p else pivots.getD t t := by
    intro t ht
    have hlt : t < pivots.size := by rw [h.size_pivots]; omega
    by_cases htk : t = k
    · subst htk
      simp [Array.getD, hlt]
    · simp [Array.getD, hlt, htk, Ne.symm htk]
  have hdiag : (w.swapRows k p).get k k = w.get p k := by
    rw [Mat.get_swapRows h.shape hk hk, Equiv.swap_apply_left]
  refine ⟨h.shape, by rw [Array.size_setIfInBounds, h.size_pivots], ?_, ?_, ?_⟩
  · intro t ht
    rw [hset t (by omega)]
    split
    · exact hp
    · exact h.pivots_lt t (by omega)
  · intro t ht
    rw [get_eliminate_of_le hswapped (by omega) (by omega) (Or.inl (by omega))]
    rcases Nat.eq_or_lt_of_le (Nat.le_of_lt_succ ht) with rfl | hlt
    · rwa [hdiag]
    · rw [Mat.get_swapRows h.shape (by omega) (by omega), swap_of_lt hkp hlt]
      exact h.diag t hlt
  · have horder : order (pivots.setIfInBounds k p) (k + 1) = order pivots k * Equiv.swap k p := by
      rw [order, order_setIfInBounds pivots p le_rfl, hset k le_rfl, if_pos rfl]
    rw [horder, Equiv.Perm.coe_mul]
    exact (h.product.swapRows h.shape hkp hp).eliminate hswapped hk (by rwa [hdiag])

/-- The elimination goes through all columns, or it stops at one whose entries on and below the
diagonal are within the threshold. -/
theorem Eliminated.columns [IsStrictOrderedRing K] {threshold : K} (hthreshold : 0 ≤ threshold)
    (m : ℕ) (h : Eliminated g w pivots n k) (hm : k + m = n) :
    let e := columns threshold (List.range' k m) w pivots
    (e.complete = true ∧ Eliminated g e.matrix e.pivots n n) ∨
      e.complete = false ∧ ∃ k' w' pivots', k' < n ∧ Eliminated g w' pivots' n k' ∧
        ∀ i, k' ≤ i → i < n → |w'.get i k'| ≤ threshold := by
  induction m generalizing k w pivots with
  | zero =>
    obtain rfl : k = n := by omega
    exact Or.inl ⟨rfl, h⟩
  | succ m ih =>
    have hrows : w.rows = n := by rw [Mat.rows, h.shape]; rfl
    obtain ⟨hge, hlt, hmag, hall⟩ := Mat.pivotFrom_spec (a := w) (c := k)
      (show k < w.rows by omega)
    rw [List.range'_succ, LU.columns]
    dsimp only
    split
    · next hpivot =>
      refine ih (h.step hge (by omega) fun hzero => ?_) (by omega)
      rw [hmag, hzero, abs_zero] at hpivot
      exact absurd hpivot (not_lt.2 hthreshold)
    · next hpivot =>
      refine Or.inr ⟨rfl, k, w, pivots, by omega, h, fun i hi hin => ?_⟩
      exact (hall i hi (by omega)).trans (not_lt.1 hpivot)

/-- A row of the given matrix, through the rows of the upper triangle. -/
theorem Eliminated.lhs_eq (h : Eliminated g w pivots n k) (hcols : g.cols = n) {i : ℕ} (hi : i < n)
    (x : ℕ → K) :
    g.lhs (order pivots k i) x =
      ∑ t ∈ range (min i k), w.get i t * ∑ j ∈ range n, upper w t j * x j +
        ∑ j ∈ range n, (if min i k ≤ j then w.get i j else 0) * x j := by
  have hentry : ∀ j ∈ range n, g.get (order pivots k i) j * x j =
      ∑ t ∈ range (min i k), w.get i t * (upper w t j * x j) +
        (if min i k ≤ j then w.get i j else 0) * x j := by
    intro j hj
    rw [h.product i hi j (mem_range.1 hj), add_mul, sum_mul]
    congr 1
    exact sum_congr rfl fun t _ => mul_assoc _ _ _
  rw [Mat.lhs, hcols, sum_congr rfl hentry, sum_add_distrib, sum_comm]
  congr 1
  exact sum_congr rfl fun t _ => (mul_sum _ _ _).symm

theorem sum_upper_mul (w : Mat K) {t : ℕ} (ht : t < n) (x : ℕ → K) :
    ∑ j ∈ range n, upper w t j * x j =
      w.get t t * x t + ∑ j ∈ Ico (t + 1) n, w.get t j * x j := by
  rw [← Triangular.sum_ite_ge ht fun j => w.get t j * x j]
  exact sum_congr rfl fun j _ => by unfold upper; split <;> simp

/-! ## Solving -/

theorem Eliminated.lhs_solveVec (h : Eliminated g w pivots n n) (hcols : g.cols = n) {b : Vec K}
    (hb : b.size = n) {r : ℕ} (hr : r < n) :
    g.lhs r ((⟨w, pivots⟩ : Factors K).solveVec b).entry = b.entry r := by
  have hrows : w.rows = n := by rw [Mat.rows, h.shape]; rfl
  obtain ⟨i, hi, rfl⟩ := exists_order_eq le_rfl h.pivots_lt hr
  have hpermute : ∀ i, ((⟨w, pivots⟩ : Factors K).permute b).entry i =
      b.entry (order pivots n i) := by
    intro i
    rw [Factors.permute, hrows]
    exact entry_foldl_swap hb.ge (fun t ht => hb ▸ h.pivots_lt t ht) i
  rw [← hpermute]
  unfold Factors.solveVec
  dsimp only
  rw [hrows]
  generalize (⟨w, pivots⟩ : Factors K).permute b = pb
  generalize hy : Triangular.forward w.get (fun _ s => s) pb n = y
  generalize hx : (Triangular.backward w.get (fun i s => s / w.get i i) y n []).toArray = x
  have hforward : ∑ t ∈ range i, w.get i t * y.entry t + y.entry i = pb.entry i := by
    have hentry := Triangular.entry_forward w.get (fun _ s => s) pb hi
    rw [hy] at hentry
    rw [hentry]
    ring
  have hbackward : ∀ t < n, ∑ j ∈ range n, upper w t j * Vec.entry x j = y.entry t := by
    intro t ht
    have hentry := Triangular.entry_backward w.get (fun i s => s / w.get i i) y ht
    rw [hx] at hentry
    rw [sum_upper_mul w ht, hentry, mul_div_cancel₀ _ (h.diag t ht)]
    ring
  rw [h.lhs_eq hcols hi, show min i n = i by omega, ← hforward]
  congr 1
  · refine sum_congr rfl fun t ht => ?_
    have ht := mem_range.1 ht
    rw [hbackward t (by omega)]
  · exact hbackward i hi

/-! ## Singular matrices -/

/-- If nothing is left of a column, the columns before it combine to it. -/
theorem Eliminated.exists_kernel (h : Eliminated g w pivots n k) (hcols : g.cols = n) (hk : k < n)
    (hzero : ∀ i, k ≤ i → i < n → w.get i k = 0) :
    ∃ v : ℕ → K, v k ≠ 0 ∧ ∀ r < n, g.lhs r v = 0 := by
  -- The leading block of the upper triangle determines the weights of the columns before it.
  obtain ⟨v, hat, hafter, hcombination⟩ := Triangular.exists_combination (u := w.get) h.diag
  have hupper : ∀ t < k, ∑ j ∈ range n, upper w t j * v j = 0 := by
    intro t ht
    have hrest : ∑ j ∈ Ico (k + 1) n, w.get t j * v j = 0 := by
      refine sum_eq_zero fun j hj => ?_
      rw [hafter j (mem_Ico.1 hj).1, mul_zero]
    rw [sum_upper_mul w (by omega), ← sum_Ico_consecutive _ (show t + 1 ≤ k + 1 by omega) hk, hrest,
      add_zero]
    exact hcombination t ht
  refine ⟨v, by rw [hat]; exact one_ne_zero, fun r hr => ?_⟩
  obtain ⟨i, hi, rfl⟩ := exists_order_eq hk.le h.pivots_lt hr
  have hsum : ∑ t ∈ range (min i k), w.get i t * ∑ j ∈ range n, upper w t j * v j = 0 := by
    refine sum_eq_zero fun t ht => ?_
    have ht := mem_range.1 ht
    rw [hupper t (by omega), mul_zero]
  rw [h.lhs_eq hcols hi, hsum, zero_add]
  rcases Nat.lt_or_ge i k with hik | hki
  · rw [show min i k = i by omega]
    exact hupper i hik
  · refine sum_eq_zero fun j hj => ?_
    rw [show min i k = k by omega]
    split
    · next hkj =>
      rcases Nat.eq_or_lt_of_le hkj with rfl | hlt
      · rw [hzero i hki hi, zero_mul]
      · rw [hafter j hlt, mul_zero]
    · rw [zero_mul]

/-- A matrix that is eliminated to the end maps only zero to zero. -/
theorem Eliminated.eq_zero (h : Eliminated g w pivots n n) (hcols : g.cols = n) {v : ℕ → K}
    (hv : ∀ r < n, g.lhs r v = 0) : ∀ i < n, v i = 0 := by
  have hupper : ∀ i < n, ∑ j ∈ range n, upper w i j * v j = 0 := by
    intro i
    induction i using Nat.strong_induction_on with
    | _ i ih =>
      intro hi
      have hlt : order pivots n i < n := by
        by_contra hge
        have hself := order_of_ge le_rfl h.pivots_lt (not_lt.1 hge)
        have := (order pivots n).injective hself
        omega
      have hrow := h.lhs_eq hcols hi v
      rw [hv _ hlt, show min i n = i by omega, sum_eq_zero, zero_add] at hrow
      · exact hrow.symm
      · intro t ht
        have ht := mem_range.1 ht
        rw [ih t ht (by omega), mul_zero]
  refine Triangular.eq_zero_of_upper h.diag fun i hi => ?_
  rw [← sum_upper_mul w hi]
  exact hupper i hi

end Columns

/-! ## The factorisation of a matrix -/

section Compute

variable [IsStrictOrderedRing K] {f : LU K} {a : Mat K} {n : ℕ}

omit [IsStrictOrderedRing K] in
theorem maxAbs_nonneg (a : Mat K) : 0 ≤ a.maxAbs := by
  rw [Mat.maxAbs, ← Array.foldl_toList]
  exact Scalar.le_foldl_max _ _ 0

omit [IsStrictOrderedRing K] in
theorem eliminated_start (hrows : a.rows = n) (hcols : a.cols = n) :
    Eliminated a a.toGeneral (Array.replicate a.rows 0) n 0 := by
  refine ⟨by rw [Mat.shape_toGeneral, hrows, hcols], by rw [Array.size_replicate, hrows],
    fun t ht => absurd ht (Nat.not_lt_zero t), fun t ht => absurd ht (Nat.not_lt_zero t), ?_⟩
  intro i _ j _
  rw [Nat.min_zero, range_zero, sum_empty, if_pos (Nat.zero_le j), zero_add, Mat.get_toGeneral]
  rfl

theorem compute_cases (hthreshold : 0 ≤ f.threshold) (hrows : a.rows = n) (hcols : a.cols = n) :
    (∃ w pivots, (f.compute a).factors = some ⟨w, pivots⟩ ∧ Eliminated a w pivots n n) ∨
      (f.compute a).factors = none ∧ ∃ k w pivots, k < n ∧ Eliminated a w pivots n k ∧
        ∀ i, k ≤ i → i < n → |w.get i k| ≤ f.threshold * a.toGeneral.maxAbs := by
  have hτ := mul_nonneg hthreshold (maxAbs_nonneg a.toGeneral)
  have hfactors : (f.compute a).factors =
      let e := columns (f.threshold * a.toGeneral.maxAbs) (List.range' 0 n) a.toGeneral
        (Array.replicate a.rows 0)
      if e.complete then some ⟨e.matrix, e.pivots⟩ else none := by
    simp only [compute, decompose, Mat.rows_toGeneral, List.range_eq_range', hrows]
  rw [hfactors]
  rcases (eliminated_start hrows hcols).columns hτ n (Nat.zero_add n) with ⟨hc, he⟩ | ⟨hc, he⟩
  · exact Or.inl ⟨_, _, if_pos hc, he⟩
  · exact Or.inr ⟨if_neg (by rw [hc]; exact Bool.false_ne_true), he⟩

theorem lhs_solveVec_compute (hthreshold : 0 ≤ f.threshold) (hrows : a.rows = n)
    (hcols : a.cols = n) {b x : Vec K} (hb : b.size = n)
    (hx : (f.compute a).solveVec? b = .ok x) :
    x.size = n ∧ ∀ r < n, a.lhs r x.entry = b.entry r := by
  obtain ⟨factors, hf, hx⟩ := Checked.bind_eq_ok_iff.1 hx
  obtain ⟨hsize, rfl⟩ := guarded_eq_ok_iff.1 hx
  refine ⟨by rw [Factors.size_solveVec, ← hsize, hb], fun r hr => ?_⟩
  unfold factors? at hf
  rcases compute_cases hthreshold hrows hcols with ⟨w, pivots, hsome, he⟩ | ⟨hnone, -⟩
  · rw [hsome] at hf
    obtain rfl := Except.ok.inj hf
    exact he.lhs_solveVec hcols hb hr
  · rw [hnone] at hf
    cases hf

theorem eq_zero_of_isSolvable (hthreshold : 0 ≤ f.threshold) (hrows : a.rows = n)
    (hcols : a.cols = n) (hf : (f.compute a).isSolvable = true) {v : ℕ → K}
    (hv : ∀ r < n, a.lhs r v = 0) : ∀ i < n, v i = 0 := by
  rcases compute_cases hthreshold hrows hcols with ⟨w, pivots, -, he⟩ | ⟨hnone, -⟩
  · exact he.eq_zero hcols hv
  · rw [isSolvable, hnone] at hf
    cases hf

/-- With a threshold of zero, a matrix without factors maps a point other than zero to zero. -/
theorem exists_kernel_of_factors_eq_none (hthreshold : f.threshold = 0) (hrows : a.rows = n)
    (hcols : a.cols = n) (hf : (f.compute a).factors = none) :
    ∃ v : ℕ → K, (∃ i < n, v i ≠ 0) ∧ ∀ r < n, a.lhs r v = 0 := by
  rcases compute_cases hthreshold.ge hrows hcols with ⟨w, pivots, hsome, -⟩ | ⟨-, hk⟩
  · rw [hsome] at hf
    cases hf
  · obtain ⟨k, w, pivots, hk, he, hsmall⟩ := hk
    have hzero : ∀ i, k ≤ i → i < n → w.get i k = 0 := by
      intro i hki hi
      have := hsmall i hki hi
      rw [hthreshold, zero_mul] at this
      exact abs_nonpos_iff.1 this
    obtain ⟨v, hv, hkernel⟩ := he.exists_kernel hcols hk hzero
    exact ⟨v, ⟨k, hk, hv⟩, hkernel⟩

end Compute

end LU

end QuadProg
