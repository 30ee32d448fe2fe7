import QuadProg.Proofs.Exact
import QuadProg.Proofs.Tableau.Basis

/-!
# What a tableau represents

The tableau of a program `A x + a = b` stays a tableau of that program under any sequence of pivots.
Every row is a combination of the rows of `[A I b]`, added to the cost in the cost row and to the
sum of the artificial variables in the last row; the coefficients of the combination are found in
the artificial columns. The rows have the same solutions throughout, and the columns of the basic
variables are unit vectors.

From this follow the identities that the simplex method lives on: the value of either objective at a
solution in terms of the reduced costs (`rowSum_sub_rhs`), the basic solution (`solves_basicPoint`)
and the ray along which a column enters (`rowSum_direction`).
-/

namespace QuadProg

open Finset

namespace Tableau

variable {K : Type} [Field K] [LinearOrder K] [Exact K]

theorem fits_exact (m n : ℕ) : Fits K m n := ⟨Memory.holds_exact _, Memory.holdsList_exact _⟩

/-- The column of the basic variable of the row `r`. -/
def basicColumn (t : Tableau K) (r : ℕ) : ℕ :=
  if t.basic r < 0 then t.n + r else (t.basic r).toNat

/-- The left-hand side of a row of the tableau at values of all variables. -/
def rowSum (t : Tableau K) (r : ℕ) (z : ℕ → K) : K :=
  ∑ j ∈ range (t.n + t.m), t.grid.get r j * z j

/-- The values satisfy the constraint rows of the tableau. -/
def Solves (t : Tableau K) (z : ℕ → K) : Prop := ∀ r < t.m, t.rowSum r z = t.rhs r

/-- How many times the row `r` contains the constraint row `i` of the program. The row of the
artificial variables starts with minus one of each. -/
def weight (t : Tableau K) (r i : ℕ) : K :=
  t.grid.get r (t.n + i) - if r = t.m + 1 then 1 else 0

/-- The entries of the constraint row `i` of the program, the right-hand side in the last column. -/
def given (a b : Mat K) (t : Tableau K) (i j : ℕ) : K :=
  if j < t.n then a.get i j else b.get i 0

/-- The entries of the cost in the row of the cost. -/
def givenCost (c : Mat K) (t : Tableau K) (r j : ℕ) : K :=
  if r = t.m ∧ j < t.n then c.get j 0 else 0

/-- The tableau is one of the program with the constraints `A x + a = b` and the cost `c`. -/
structure Represents (a b c : Mat K) (t : Tableau K) : Prop where
  m_eq : t.m = a.rows
  n_eq : t.n = a.cols
  shape_eq : t.grid.shape = .general (t.m + 2) (t.n + t.m + 1)
  /-- Every row is a combination of what was given. -/
  entry_eq : ∀ r < t.m + 2, ∀ j, j < t.n ∨ j = t.n + t.m →
    t.grid.get r j = givenCost c t r j + ∑ i ∈ range t.m, t.weight r i * given a b t i j
  /-- The rows of the tableau have no further solutions. -/
  solves : ∀ z, t.Solves z → ∀ i < t.m, a.lhs i z + z (t.n + i) = b.get i 0
  /-- The columns of the basic variables are unit vectors, also in the objective rows. -/
  unit : ∀ r < t.m, ∀ s < t.m + 2, t.grid.get s (t.basicColumn r) = if s = r then 1 else 0

variable {a b c : Mat K} {t : Tableau K}

/-! ## The first tableau -/

omit [Field K] [LinearOrder K] [Exact K] in
theorem basicColumn_of_isArtificial {r : ℕ} (hr : t.isArtificial r = true) :
    t.basicColumn r = t.n + r := by
  rw [basicColumn, if_pos ((isArtificial_iff t r).1 hr)]

theorem get_ofStandardForm {r j : ℕ} (hr : r < a.rows + 2) (hj : j < a.cols + a.rows + 1) :
    (ofStandardForm a b c).grid.get r j = initialEntry a b c a.rows a.cols r j :=
  Mat.get_ofFn _ hr hj

theorem get_ofStandardForm_artificial {r i : ℕ} (hr : r < a.rows + 2) (hi : i < a.rows) :
    (ofStandardForm a b c).grid.get r (a.cols + i) = if i = r then 1 else 0 := by
  rw [get_ofStandardForm hr (by omega)]
  unfold initialEntry
  have h₁ : i ≠ a.rows := by omega
  by_cases hrm : r < a.rows
  · simp [hrm, h₁]
  · have h₂ : i ≠ r := by omega
    simp [hrm, h₁, h₂]

theorem rhs_ofStandardForm {r : ℕ} (hr : r < a.rows) :
    (ofStandardForm a b c).rhs r = b.get r 0 := by
  show (ofStandardForm a b c).grid.get r (a.cols + a.rows) = _
  rw [get_ofStandardForm (by omega) (by omega)]
  simp [initialEntry, hr]

theorem basicColumn_ofStandardForm {r : ℕ} (hr : r < a.rows) :
    (ofStandardForm a b c).basicColumn r = a.cols + r := by
  refine basicColumn_of_isArtificial ((isArtificial_iff _ _).2 ?_)
  simp [basic, ofStandardForm, Array.getD, hr]

theorem rowSum_ofStandardForm {r : ℕ} (hr : r < a.rows) (z : ℕ → K) :
    (ofStandardForm a b c).rowSum r z = a.lhs r z + z (a.cols + r) := by
  show ∑ j ∈ range (a.cols + a.rows), _ = _
  rw [sum_range_add]
  congr 1
  · refine sum_congr rfl fun j hj => ?_
    have hj := mem_range.1 hj
    rw [get_ofStandardForm (by omega) (by omega)]
    simp [initialEntry, hr, hj]
  · have hterm : ∀ k ∈ range a.rows, (ofStandardForm a b c).grid.get r (a.cols + k) *
        z (a.cols + k) = if k = r then z (a.cols + r) else 0 := by
      intro k hk
      rw [get_ofStandardForm_artificial (by omega) (mem_range.1 hk)]
      by_cases hkr : k = r
      · subst hkr; simp
      · simp [hkr]
    rw [sum_congr rfl hterm, sum_ite_eq' (range a.rows) r, if_pos (mem_range.2 hr)]

/-- In the first tableau a constraint row contains itself, the cost row no constraint row and the
last row minus one of each. -/
theorem entry_ofStandardForm {r j : ℕ} (hr : r < a.rows + 2)
    (hj : j < a.cols ∨ j = a.cols + a.rows) :
    (ofStandardForm a b c).grid.get r j = givenCost c (ofStandardForm a b c) r j +
      ∑ i ∈ range a.rows, (ofStandardForm a b c).weight r i *
        given a b (ofStandardForm a b c) i j := by
  have hn : (ofStandardForm a b c).n = a.cols := rfl
  have hm : (ofStandardForm a b c).m = a.rows := rfl
  have hweight : ∀ i ∈ range a.rows, (ofStandardForm a b c).weight r i =
      (if i = r then 1 else 0) - if r = a.rows + 1 then 1 else 0 := by
    intro i hi
    rw [weight]
    exact congrArg (· - _) (get_ofStandardForm_artificial hr (mem_range.1 hi))
  rw [get_ofStandardForm hr (by omega), sum_congr rfl fun i hi => by rw [hweight i hi]]
  rcases Nat.lt_trichotomy r a.rows with hlt | heq | hgt
  · have h₁ : r ≠ a.rows := by omega
    have h₂ : r ≠ a.rows + 1 := by omega
    rcases hj with h | h
    · simp [initialEntry, given, givenCost, hm, hn, hlt, h, h₁, h₂]
    · simp [initialEntry, given, givenCost, hm, hn, hlt, h, h₁, h₂]
  · subst heq
    have h₁ : ∀ i ∈ range a.rows, ((if i = a.rows then (1 : K) else 0) -
        if a.rows = a.rows + 1 then 1 else 0) * given a b (ofStandardForm a b c) i j = 0 := by
      intro i hi
      have : i ≠ a.rows := (mem_range.1 hi).ne
      simp [this]
    rw [sum_eq_zero h₁]
    rcases hj with h | h
    · simp [initialEntry, givenCost, hm, hn, h]
    · simp [initialEntry, givenCost, hm, hn, h]
  · have hr' : r = a.rows + 1 := by omega
    subst hr'
    have h₁ : ∀ i ∈ range a.rows, ((if i = a.rows + 1 then (1 : K) else 0) -
        if a.rows + 1 = a.rows + 1 then 1 else 0) * given a b (ofStandardForm a b c) i j =
        -given a b (ofStandardForm a b c) i j := by
      intro i hi
      have : i ≠ a.rows + 1 := by have := mem_range.1 hi; omega
      simp [this]
    rw [sum_congr rfl h₁, sum_neg_distrib]
    rcases hj with h | h
    · simp [initialEntry, given, givenCost, hm, hn, h]
    · simp [initialEntry, given, givenCost, hm, hn, h]

theorem represents_ofStandardForm (a b c : Mat K) : Represents a b c (ofStandardForm a b c) := by
  refine ⟨rfl, rfl, rfl, fun r hr j hj => entry_ofStandardForm hr hj, ?_, ?_⟩
  · intro z hz i hi
    have hrow := hz i hi
    rw [rowSum_ofStandardForm hi, rhs_ofStandardForm hi] at hrow
    exact hrow
  · intro r hr s hs
    rw [basicColumn_ofStandardForm hr, get_ofStandardForm_artificial hs hr]
    exact if_congr eq_comm rfl rfl

/-! ## Pivots -/

/-- The entries after a pivot, in the pivot row and in the others. -/
theorem get_grid_pivot {nr nc row col r j : ℕ} (hshape : t.grid.shape = .general nr nc)
    (hr : r < nr) (hj : j < nc) (hp : t.grid.get row col ≠ 0) :
    (t.pivot row col).grid.get r j =
      if r = row then t.grid.get row j / t.grid.get row col
      else t.grid.get r j - t.grid.get r col * (t.grid.get row j / t.grid.get row col) := by
  have hget : (t.pivot row col).grid.get r j = pivotEntry t.grid row col r j := by
    show (Mat.ofFn t.grid.shape _).get r j = _
    rw [hshape]
    exact Mat.get_ofFn _ hr hj
  have hrow : pivotRowEntry t.grid row col j = t.grid.get row j / t.grid.get row col := by
    unfold pivotRowEntry
    split
    · next h => rw [h, div_self hp]
    · rw [one_div, inv_mul_eq_div]
  rw [hget, pivotEntry, hrow]
  by_cases hrr : r = row
  · simp [hrr]
  · by_cases hz : t.grid.get r col = 0
    · simp [hrr, hz]
    · by_cases hjc : j = col
      · simp [hrr, hz, hjc, hp]
      · simp [hrr, hz, hjc]

theorem rowSum_pivot {row col r : ℕ}
    (hshape : t.grid.shape = .general (t.m + 2) (t.n + t.m + 1)) (hr : r < t.m + 2)
    (hp : t.grid.get row col ≠ 0) (z : ℕ → K) :
    (t.pivot row col).rowSum r z =
      if r = row then t.rowSum row z / t.grid.get row col
      else t.rowSum r z - t.grid.get r col * (t.rowSum row z / t.grid.get row col) := by
  have hterm : ∀ j ∈ range (t.n + t.m), (t.pivot row col).grid.get r j * z j =
      (if r = row then t.grid.get row j / t.grid.get row col
      else t.grid.get r j - t.grid.get r col * (t.grid.get row j / t.grid.get row col)) * z j := by
    intro j hj
    rw [get_grid_pivot hshape hr (Nat.lt_succ_of_lt (mem_range.1 hj)) hp]
  show ∑ j ∈ range (t.n + t.m), _ = _
  rw [sum_congr rfl hterm]
  split
  · rw [rowSum, sum_div]
    exact sum_congr rfl fun j _ => by ring
  · rw [rowSum, rowSum, sum_div, mul_sum, ← sum_sub_distrib]
    exact sum_congr rfl fun j _ => by ring

theorem rhs_pivot {row col r : ℕ} (hshape : t.grid.shape = .general (t.m + 2) (t.n + t.m + 1))
    (hr : r < t.m + 2) (hp : t.grid.get row col ≠ 0) :
    (t.pivot row col).rhs r =
      if r = row then t.rhs row / t.grid.get row col
      else t.rhs r - t.grid.get r col * (t.rhs row / t.grid.get row col) :=
  get_grid_pivot hshape hr (Nat.lt_succ_self _) hp

theorem solves_pivot_iff {row col : ℕ} (hshape : t.grid.shape = .general (t.m + 2) (t.n + t.m + 1))
    (hrow : row < t.m) (hp : t.grid.get row col ≠ 0) (z : ℕ → K) :
    (t.pivot row col).Solves z ↔ t.Solves z := by
  constructor
  · intro h r hr
    have hpr := h row hrow
    rw [rowSum_pivot hshape (by omega) hp, rhs_pivot hshape (by omega) hp, if_pos rfl, if_pos rfl,
      div_left_inj' hp] at hpr
    have hrr := h r hr
    rw [rowSum_pivot hshape (by omega) hp, rhs_pivot hshape (by omega) hp] at hrr
    split at hrr
    · next he => rw [he]; exact hpr
    · rw [hpr] at hrr
      exact sub_left_inj.1 hrr
  · intro h r hr
    have hr' : r < t.m := hr
    rw [rowSum_pivot hshape (by omega) hp, rhs_pivot hshape (by omega) hp, h row hrow, h r hr']

theorem weight_pivot {row col r i : ℕ} (hshape : t.grid.shape = .general (t.m + 2) (t.n + t.m + 1))
    (hrow : row < t.m) (hr : r < t.m + 2) (hi : i < t.m) (hp : t.grid.get row col ≠ 0) :
    (t.pivot row col).weight r i =
      if r = row then t.weight row i / t.grid.get row col
      else t.weight r i - t.grid.get r col * (t.weight row i / t.grid.get row col) := by
  have hne : row ≠ t.m + 1 := by omega
  show (t.pivot row col).grid.get r (t.n + i) - _ = _
  rw [get_grid_pivot hshape hr (by omega) hp]
  by_cases hrr : r = row
  · subst hrr
    simp [weight, hne]
  · simp only [weight, hrr, hne, if_false, m_pivot, sub_zero]
    exact sub_right_comm _ _ _

theorem basicColumn_pivot {row col : ℕ} (h : t.Bookkept) (hrow : row < t.m) (r : ℕ) :
    (t.pivot row col).basicColumn r = if r = row then col else t.basicColumn r := by
  have hsize : row < t.basis.size := by rw [h.size_basis]; exact hrow
  rw [basicColumn, basic_pivot col r hsize]
  by_cases hrr : r = row
  · simp [hrr]
  · simp [hrr, basicColumn]

omit [Field K] [LinearOrder K] [Exact K] in
theorem Bookkept.basicColumn_lt (h : t.Bookkept) {r : ℕ} (hr : r < t.m) :
    t.basicColumn r < t.n + t.m := by
  unfold basicColumn
  split
  · omega
  · next hnn =>
    have := h.structural r hr (by omega)
    omega

/-- A pivot on an entry that is not zero keeps the views of the basis in agreement: the column of a
basic variable has no such entry in any row but its own. -/
theorem Represents.bookkept_pivot (h : Represents a b c t) (hb : t.Bookkept) {row col : ℕ}
    (hrow : row < t.m) (hcol : col < t.n) (hp : t.grid.get row col ≠ 0) :
    (t.pivot row col).Bookkept := by
  refine hb.pivot hrow hcol fun r hr he => ?_
  have hcolumn : t.basicColumn r = col := by rw [basicColumn, if_neg (by omega)]; omega
  by_contra hne
  apply hp
  rw [← hcolumn, h.unit r hr row (by omega), if_neg (Ne.symm hne)]

/-- After a pivot every row is still a combination of what was given, with the new weights. -/
theorem Represents.entry_pivot (h : Represents a b c t) {row col : ℕ} (hrow : row < t.m)
    (hp : t.grid.get row col ≠ 0) {r j : ℕ} (hr : r < t.m + 2) (hj : j < t.n ∨ j = t.n + t.m) :
    (t.pivot row col).grid.get r j =
      givenCost c t r j + ∑ i ∈ range t.m, (t.pivot row col).weight r i * given a b t i j := by
  have hrowm : ¬ (row = t.m ∧ j < t.n) := by omega
  have hpiv : t.grid.get row j = ∑ i ∈ range t.m, t.weight row i * given a b t i j := by
    rw [h.entry_eq row (by omega) j hj, givenCost, if_neg hrowm, zero_add]
  have hsum : ∑ i ∈ range t.m, (t.pivot row col).weight r i * given a b t i j =
      ∑ i ∈ range t.m, (if r = row then t.weight row i / t.grid.get row col
        else t.weight r i - t.grid.get r col * (t.weight row i / t.grid.get row col)) *
          given a b t i j :=
    sum_congr rfl fun i hi => by
      rw [weight_pivot h.shape_eq hrow hr (mem_range.1 hi) hp]
  rw [get_grid_pivot h.shape_eq hr (by omega) hp, hsum, hpiv]
  split
  · next he =>
    rw [he, givenCost, if_neg hrowm, zero_add, sum_div]
    exact sum_congr rfl fun i _ => by ring
  · rw [h.entry_eq r hr j hj, add_sub_assoc, sum_div, mul_sum, ← sum_sub_distrib]
    congr 1
    exact sum_congr rfl fun i _ => by ring

/-- After a pivot the column that entered is a unit vector, and those of the other rows still are.
-/
theorem Represents.unit_pivot (h : Represents a b c t) (hb : t.Bookkept) {row col : ℕ}
    (hrow : row < t.m) (hp : t.grid.get row col ≠ 0) {r s : ℕ} (hr : r < t.m)
    (hs : s < t.m + 2) :
    (t.pivot row col).grid.get s ((t.pivot row col).basicColumn r) = if s = r then 1 else 0 := by
  rw [basicColumn_pivot hb hrow]
  split
  · next he =>
    subst he
    have hcol : col < t.n + t.m + 1 := by
      by_contra hge
      exact hp (Mat.get_of_not_contains (by rw [h.shape_eq]; exact fun hc => hge hc.2))
    rw [get_grid_pivot h.shape_eq hs hcol hp, div_self hp, mul_one, sub_self]
  · next hne =>
    have hlt := hb.basicColumn_lt hr
    have hzero : t.grid.get row (t.basicColumn r) = 0 := by
      rw [h.unit r hr row (by omega), if_neg (Ne.symm hne)]
    rw [get_grid_pivot h.shape_eq hs (by omega) hp, hzero, zero_div, mul_zero, sub_zero,
      h.unit r hr s hs]
    by_cases hsr : s = row
    · rw [if_pos hsr, hsr, if_neg (Ne.symm hne)]
    · rw [if_neg hsr]

/-- A pivot on an entry that is not zero keeps what the tableau represents. -/
theorem Represents.pivot (h : Represents a b c t) (hb : t.Bookkept) {row col : ℕ}
    (hrow : row < t.m) (hp : t.grid.get row col ≠ 0) : Represents a b c (t.pivot row col) where
  m_eq := h.m_eq
  n_eq := h.n_eq
  shape_eq := h.shape_eq
  entry_eq _ hr _ hj := h.entry_pivot hrow hp hr hj
  solves z hz := h.solves z ((solves_pivot_iff h.shape_eq hrow hp z).1 hz)
  unit _ hr _ hs := h.unit_pivot hb hrow hp hr hs

/-! ## Objectives at a solution -/

theorem Represents.rhs_eq_sum (h : Represents a b c t) {r : ℕ} (hr : r < t.m + 2) :
    t.rhs r = ∑ i ∈ range t.m, t.weight r i * b.get i 0 := by
  rw [rhs, h.entry_eq r hr _ (Or.inr rfl), givenCost, if_neg (by omega), zero_add]
  exact sum_congr rfl fun i _ => by rw [given, if_neg (by omega)]

/-- The structural part of a row weighs the left-hand sides of the program. -/
theorem Represents.sum_structural (h : Represents a b c t) {r : ℕ} (hr : r < t.m + 2)
    (z : ℕ → K) : ∑ j ∈ range t.n, t.grid.get r j * z j =
      ∑ j ∈ range t.n, givenCost c t r j * z j + ∑ i ∈ range t.m, t.weight r i * a.lhs i z := by
  have hterm : ∀ j ∈ range t.n, t.grid.get r j * z j = givenCost c t r j * z j +
      ∑ i ∈ range t.m, t.weight r i * (a.get i j * z j) := by
    intro j hj
    have hj := mem_range.1 hj
    rw [h.entry_eq r hr j (Or.inl hj), add_mul, sum_mul]
    congr 1
    refine sum_congr rfl fun i _ => ?_
    rw [given, if_pos hj]
    ring
  rw [sum_congr rfl hterm, sum_add_distrib, sum_comm]
  congr 1
  refine sum_congr rfl fun i _ => ?_
  rw [Mat.lhs, ← h.n_eq, mul_sum]

/-- The artificial part of a row has the weights themselves as entries, and in the last row also the
costs of the first phase. -/
theorem sum_artificial (t : Tableau K) (r : ℕ) (z : ℕ → K) :
    ∑ k ∈ range t.m, t.grid.get r (t.n + k) * z (t.n + k) =
      ∑ k ∈ range t.m, t.weight r k * z (t.n + k) +
        (if r = t.m + 1 then ∑ k ∈ range t.m, z (t.n + k) else 0) := by
  have hterm : ∀ k ∈ range t.m, t.grid.get r (t.n + k) * z (t.n + k) =
      t.weight r k * z (t.n + k) + (if r = t.m + 1 then z (t.n + k) else 0) := by
    intro k _
    rw [weight]
    split <;> ring
  rw [sum_congr rfl hterm, sum_add_distrib]
  split <;> simp

theorem sum_givenCost (t : Tableau K) (r : ℕ) (z : ℕ → K) :
    ∑ j ∈ range t.n, givenCost c t r j * z j =
      if r = t.m then ∑ j ∈ range t.n, c.get j 0 * z j else 0 := by
  split
  · next he =>
    refine sum_congr rfl fun j hj => ?_
    rw [givenCost, if_pos ⟨he, mem_range.1 hj⟩]
  · next hne =>
    refine sum_eq_zero fun j _ => ?_
    rw [givenCost, if_neg fun hc => hne hc.1, zero_mul]

/-- At a solution of the program, a constraint row is satisfied, the cost row accounts for the cost
and the last row for the sum of the artificial variables. -/
theorem Represents.rowSum_sub_rhs (h : Represents a b c t) {z : ℕ → K}
    (hz : ∀ i < t.m, a.lhs i z + z (t.n + i) = b.get i 0) {r : ℕ} (hr : r < t.m + 2) :
    t.rowSum r z - t.rhs r =
      if r = t.m then ∑ j ∈ range t.n, c.get j 0 * z j
      else if r = t.m + 1 then ∑ k ∈ range t.m, z (t.n + k) else 0 := by
  have hrows : ∑ i ∈ range t.m, t.weight r i * a.lhs i z +
      ∑ k ∈ range t.m, t.weight r k * z (t.n + k) = t.rhs r := by
    rw [h.rhs_eq_sum hr, ← sum_add_distrib]
    exact sum_congr rfl fun i hi => by rw [← mul_add, hz i (mem_range.1 hi)]
  rw [rowSum, sum_range_add, h.sum_structural hr, sum_artificial, sum_givenCost, ← hrows]
  by_cases h₁ : r = t.m
  · have h₂ : r ≠ t.m + 1 := by omega
    simp only [h₁, if_true]
    rw [if_neg (by omega)]
    ring
  · simp only [h₁, if_false]
    ring

theorem Represents.sum_sub_rhs (h : Represents a b c t) {x : ℕ → K}
    (hx : ∀ i < t.m, a.lhs i x = b.get i 0) {r : ℕ} (hr : r < t.m + 2) :
    ∑ j ∈ range t.n, t.grid.get r j * x j - t.rhs r =
      if r = t.m then ∑ j ∈ range t.n, c.get j 0 * x j else 0 := by
  set z : ℕ → K := fun j => if j < t.n then x j else 0 with hz
  have hlhs : ∀ i, a.lhs i z = a.lhs i x := fun i =>
    Mat.lhs_congr fun j hj => by simp [hz, h.n_eq, hj]
  have hcongr : ∀ f : ℕ → K, ∑ j ∈ range t.n, f j * z j = ∑ j ∈ range t.n, f j * x j := fun f =>
    sum_congr rfl fun j hj => by simp [hz, mem_range.1 hj]
  have hsum := h.rowSum_sub_rhs (z := z) (fun i hi => by rw [hlhs, hx i hi]; simp [hz]) hr
  have hartificial : ∑ k ∈ range t.m, z (t.n + k) = 0 := sum_eq_zero fun k _ => by simp [hz]
  have hrow : t.rowSum r z = ∑ j ∈ range t.n, t.grid.get r j * x j := by
    rw [rowSum, sum_range_add, hcongr, add_eq_left]
    exact sum_eq_zero fun k _ => by simp [hz]
  rw [hrow, hcongr, hartificial, ite_self] at hsum
  exact hsum

/-- The duals account for the cost row: the reduced costs are `c - Aᵀ y`. -/
theorem Represents.reducedCost_eq (h : Represents a b c t) {j : ℕ} (hj : j < t.n) :
    t.grid.get t.m j = c.get j 0 - ∑ i ∈ range t.m, -t.grid.get t.m (t.n + i) * a.get i j := by
  rw [h.entry_eq t.m (by omega) j (Or.inl hj), givenCost, if_pos ⟨rfl, hj⟩, sub_eq_add_neg,
    ← sum_neg_distrib]
  congr 1
  refine sum_congr rfl fun i _ => ?_
  rw [weight, given, if_pos hj, if_neg (by omega), sub_zero, neg_mul, neg_neg]

/-- The duals account for the objective: the cost at the basic solution is `b y`. -/
theorem Represents.cost_eq (h : Represents a b c t) :
    t.cost = ∑ i ∈ range t.m, b.get i 0 * -t.grid.get t.m (t.n + i) := by
  rw [cost, rhs, h.entry_eq t.m (by omega) _ (Or.inr rfl), givenCost, if_neg (by omega), zero_add,
    ← sum_neg_distrib]
  refine sum_congr rfl fun i _ => ?_
  rw [weight, given, if_neg (by omega), if_neg (by omega), sub_zero]
  ring

/-! ## Basic solutions and rays -/

/-- The value `v r` for the basic variable of each row `r`, and zero for all others. -/
def place (t : Tableau K) (v : ℕ → K) (j : ℕ) : K :=
  ∑ r ∈ range t.m, if t.basicColumn r = j then v r else 0

/-- The basic solution, artificial variables included. -/
def basicPoint (t : Tableau K) : ℕ → K := t.place t.rhs

/-- How the variables change when the one of the column `col` grows by one. -/
def direction (t : Tableau K) (col j : ℕ) : K :=
  (if j = col then 1 else 0) - t.place (fun r => t.grid.get r col) j

theorem rowSum_add_mul (t : Tableau K) (r : ℕ) (z d : ℕ → K) (s : K) :
    t.rowSum r (fun j => z j + s * d j) = t.rowSum r z + s * t.rowSum r d := by
  simp only [rowSum, mul_add, sum_add_distrib, mul_sum]
  congr 1
  exact sum_congr rfl fun j _ => by ring

theorem Represents.rowSum_place (h : Represents a b c t) (hb : t.Bookkept) (v : ℕ → K) {s : ℕ}
    (hs : s < t.m + 2) : t.rowSum s (t.place v) = if s < t.m then v s else 0 := by
  have hinner : ∀ r ∈ range t.m, ∑ j ∈ range (t.n + t.m),
      t.grid.get s j * (if t.basicColumn r = j then v r else 0) = if s = r then v r else 0 := by
    intro r hr
    have hr := mem_range.1 hr
    have hterm : ∀ j ∈ range (t.n + t.m),
        t.grid.get s j * (if t.basicColumn r = j then v r else 0) =
          if t.basicColumn r = j then t.grid.get s (t.basicColumn r) * v r else 0 := by
      intro j _
      split
      · next he => rw [he]
      · rw [mul_zero]
    rw [sum_congr rfl hterm, sum_ite_eq, if_pos (mem_range.2 (hb.basicColumn_lt hr)),
      h.unit r hr s hs]
    split <;> simp
  simp only [rowSum, place, mul_sum]
  rw [sum_comm, sum_congr rfl hinner]
  simp

theorem Represents.solves_basicPoint (h : Represents a b c t) (hb : t.Bookkept) :
    t.Solves t.basicPoint := by
  intro r hr
  rw [basicPoint, h.rowSum_place hb _ (by omega), if_pos hr]

/-- Along the direction of a column no constraint row changes, and an objective row changes by the
reduced cost of the column. -/
theorem Represents.rowSum_direction (h : Represents a b c t) (hb : t.Bookkept) {col s : ℕ}
    (hcol : col < t.n + t.m) (hs : s < t.m + 2) :
    t.rowSum s (t.direction col) = if s < t.m then 0 else t.grid.get s col := by
  have hsplit : t.rowSum s (t.direction col) =
      t.grid.get s col - t.rowSum s (t.place fun r => t.grid.get r col) := by
    simp only [rowSum, direction, mul_sub, sum_sub_distrib]
    congr 1
    simp [hcol]
  rw [hsplit, h.rowSum_place hb _ hs]
  split <;> simp

theorem Represents.basicColumn_injective (h : Represents a b c t) {r s : ℕ} (hr : r < t.m)
    (hs : s < t.m) (he : t.basicColumn r = t.basicColumn s) : r = s := by
  by_contra hne
  have h₁ := h.unit r hr r (by omega)
  rw [he, h.unit s hs r (by omega), if_neg hne, if_pos rfl] at h₁
  exact zero_ne_one h₁

theorem Represents.place_basicColumn (h : Represents a b c t) (v : ℕ → K) {r : ℕ} (hr : r < t.m) :
    t.place v (t.basicColumn r) = v r := by
  rw [place, sum_eq_single r]
  · rw [if_pos rfl]
  · intro s hs hne
    exact if_neg fun he => hne (h.basicColumn_injective (mem_range.1 hs) hr he)
  · intro hnot
    exact absurd (mem_range.2 hr) hnot

omit [LinearOrder K] [Exact K] in
theorem place_eq_zero {v : ℕ → K} {j : ℕ} (hj : ∀ r < t.m, t.basicColumn r ≠ j) :
    t.place v j = 0 :=
  sum_eq_zero fun r hr => if_neg (hj r (mem_range.1 hr))

theorem Represents.lhs_basicPoint (h : Represents a b c t) (hb : t.Bookkept) :
    ∀ i < t.m, a.lhs i t.basicPoint + t.basicPoint (t.n + i) = b.get i 0 :=
  h.solves _ (h.solves_basicPoint hb)

theorem Represents.infeasibility_eq (h : Represents a b c t) (hb : t.Bookkept) :
    t.infeasibility = ∑ k ∈ range t.m, t.basicPoint (t.n + k) := by
  have hrow := h.rowSum_sub_rhs (h.lhs_basicPoint hb) (r := t.m + 1) (by omega)
  rw [if_neg (by omega), if_pos rfl, basicPoint, h.rowSum_place hb _ (by omega),
    if_neg (by omega), zero_sub] at hrow
  exact hrow

theorem Represents.cost_basicPoint (h : Represents a b c t) (hb : t.Bookkept) :
    t.cost = ∑ j ∈ range t.n, c.get j 0 * t.basicPoint j := by
  have hrow := h.rowSum_sub_rhs (h.lhs_basicPoint hb) (r := t.m) (by omega)
  rw [if_pos rfl, basicPoint, h.rowSum_place hb _ (by omega), if_neg (by omega), zero_sub] at hrow
  exact hrow

/-- A value that rows give to an artificial variable is that of its own row, if it is basic there.
-/
theorem Represents.place_artificial (h : Represents a b c t) (hb : t.Bookkept) (v : ℕ → K) {k : ℕ}
    (hk : k < t.m) : t.place v (t.n + k) = if t.isArtificial k = true then v k else 0 := by
  split
  · next ha =>
    rw [← basicColumn_of_isArtificial ha]
    exact h.place_basicColumn v hk
  · next ha =>
    refine place_eq_zero fun r hr he => ?_
    unfold basicColumn at he
    split at he
    · next hneg =>
      have hrk : r = k := by omega
      exact ha ((isArtificial_iff t k).2 (hrk ▸ hneg))
    · next hnn =>
      have := hb.structural r hr (by omega)
      omega

/-- Moving along the direction of a column keeps the equations of the program. -/
theorem Represents.lhs_ray (h : Represents a b c t) (hb : t.Bookkept) {col : ℕ} (hcol : col < t.n)
    (s : K) : ∀ i < t.m, a.lhs i (fun j => t.basicPoint j + s * t.direction col j) +
      (t.basicPoint (t.n + i) + s * t.direction col (t.n + i)) = b.get i 0 := by
  refine h.solves _ fun r hr => ?_
  rw [rowSum_add_mul, h.solves_basicPoint hb r hr, h.rowSum_direction hb (by omega) (by omega),
    if_pos hr, mul_zero, add_zero]

/-- It changes an objective in proportion to the reduced cost. -/
theorem Represents.rowSum_ray (h : Represents a b c t) (hb : t.Bookkept) {col : ℕ}
    (hcol : col < t.n) (s : K) {r : ℕ} (hr : t.m ≤ r) (hr' : r < t.m + 2) :
    t.rowSum r (fun j => t.basicPoint j + s * t.direction col j) = s * t.grid.get r col := by
  rw [rowSum_add_mul, basicPoint, h.rowSum_place hb _ hr', if_neg (by omega),
    h.rowSum_direction hb (by omega) hr', if_neg (by omega), zero_add]

/-- The values that rows give to their basic variables, one row after another. -/
theorem size_foldl_placeBasic (t : Tableau K) (rows : List ℕ) (x : Vec K) :
    (rows.foldl t.placeBasic x).size = x.size := by
  induction rows generalizing x with
  | nil => rfl
  | cons r rest ih =>
    rw [List.foldl_cons, ih]
    unfold placeBasic
    dsimp only
    split <;> simp

@[simp] theorem size_point (t : Tableau K) : t.point.size = t.n := by
  simp [point, size_foldl_placeBasic]

/-- The point of a tableau is the part of its basic solution that belongs to the program. -/
theorem Represents.entry_point (h : Represents a b c t) (hb : t.Bookkept) {j : ℕ} (hj : j < t.n) :
    t.point.entry j = t.basicPoint j := by
  -- After the first `k` rows the point holds the sum over those rows; a later row never writes to
  -- a place that an earlier one has used.
  have key : ∀ k ≤ t.m, ((List.range k).foldl t.placeBasic (Vec.zeros t.n)).entry j =
      ∑ r ∈ range k, if t.basicColumn r = j then t.rhs r else 0 := by
    intro k
    induction k with
    | zero => intro _; simp
    | succ k ih =>
      intro hk
      have hk' : k < t.m := by omega
      have hbasic : t.basis.getD k (-1) = t.basic k := by
        simp [basic, Array.getD, h.m_eq, hb.size_basis, show k < a.rows by rw [← h.m_eq]; exact hk']
      rw [List.range_succ, List.foldl_append, List.foldl_cons, List.foldl_nil, sum_range_succ,
        ← ih (by omega)]
      generalize hx : (List.range k).foldl t.placeBasic (Vec.zeros t.n) = x
      have hsize : x.size = t.n := by rw [← hx, size_foldl_placeBasic, Vec.size_zeros]
      unfold placeBasic
      rw [hbasic]
      dsimp only
      by_cases hnn : 0 ≤ t.basic k
      · have hcol : t.basicColumn k = (t.basic k).toNat := by rw [basicColumn, if_neg (by omega)]
        rw [if_pos hnn, hcol]
        by_cases he : (t.basic k).toNat = j
        · have hzero : x.entry j = 0 := by
            rw [← hx, ih (by omega)]
            refine sum_eq_zero fun r hr => if_neg fun hrj => ?_
            have hr := mem_range.1 hr
            have := h.basicColumn_injective (by omega) hk' (hrj.trans (he.symm.trans hcol.symm))
            omega
          rw [if_pos he, hzero, zero_add, Vec.entry_setIfInBounds, if_pos ⟨he, by omega⟩]
        · rw [if_neg he, add_zero, Vec.entry_setIfInBounds, if_neg fun hc => he hc.1]
      · have hcol : t.basicColumn k = t.n + k := by rw [basicColumn, if_pos (by omega)]
        rw [if_neg hnn, if_neg (by omega), add_zero]
  exact key t.m le_rfl

end Tableau

end QuadProg
