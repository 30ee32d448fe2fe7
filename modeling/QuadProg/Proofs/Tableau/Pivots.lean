import QuadProg.Proofs.Tableau.Represents

/-!
# Sequences of pivots

Whatever entries other than zero a tableau is pivoted on, one after another, it remains a tableau of
the program it was set up for, `A x + a = b` with the cost `c`. Such a tableau can be read: its
constraint rows have the solutions of the program, its objective rows account for the cost and for
the sum of the artificial variables at each of them, and its last column and its artificial columns
hold the basic solution and the dual variables that belong to it.
-/

namespace QuadProg

open Finset

namespace Tableau

section Sequence

variable {α : Type} [Scalar α]

/-- Pivots on one row and column after another. -/
def pivots? (t : Tableau α) (choices : List (ℕ × ℕ)) : Checked (Tableau α) :=
  choices.foldlM (fun t choice => t.pivot? choice.1 choice.2) t

/-- Every choice is a row and a column of the program, and the entry there is not zero when its turn
comes. -/
def Pivotable : List (ℕ × ℕ) → Tableau α → Prop
  | [], _ => True
  | (row, col) :: rest, t =>
    row < t.m ∧ col < t.n ∧ t.grid.get row col ≠ 0 ∧ Pivotable rest (t.pivot row col)

instance Pivotable.decidable [DecidableEq α] :
    (choices : List (ℕ × ℕ)) → (t : Tableau α) → Decidable (t.Pivotable choices)
  | [], _ => inferInstanceAs (Decidable True)
  | (row, col) :: rest, t =>
    have := decidable rest (t.pivot row col)
    inferInstanceAs (Decidable (row < t.m ∧ col < t.n ∧ t.grid.get row col ≠ 0 ∧ _))

/-- The value of the artificial variable of a row at the basic solution. -/
def artificialValue (t : Tableau α) (r : ℕ) : α := if t.isArtificial r then t.rhs r else 0

theorem pivots?_cons_of_lt {t : Tableau α} {row col : ℕ} (hrow : row < t.m) (hcol : col < t.n)
    (rest : List (ℕ × ℕ)) : t.pivots? ((row, col) :: rest) = (t.pivot row col).pivots? rest := by
  rw [pivots?, List.foldlM_cons, pivot?, guarded_eq_ok ⟨hrow, hcol⟩]
  rfl

end Sequence

variable {K : Type} [Field K] [LinearOrder K] [Exact K]
variable {a b c : Mat K} {t : Tableau K}

/-- The tableau reads as one of the program `A x + a = b` with the cost `c`. -/
structure Depicts (a b c : Mat K) (t : Tableau K) : Prop where
  m_eq : t.m = a.rows
  n_eq : t.n = a.cols
  solves_iff : ∀ z, t.Solves z ↔ ∀ i < a.rows, a.lhs i z + z (a.cols + i) = b.get i 0
  /-- The row of the cost accounts for the cost of a solution. -/
  costRow : ∀ z, t.Solves z →
    ∑ j ∈ range a.cols, c.get j 0 * z j = t.rowSum t.m z - t.rhs t.m
  /-- The last row accounts for the artificial variables of a solution. -/
  artificialRow : ∀ z, t.Solves z →
    ∑ k ∈ range a.rows, z (a.cols + k) = t.rowSum (t.m + 1) z - t.rhs (t.m + 1)
  unit : ∀ r < t.m, ∀ s < t.m + 2, t.grid.get s (t.basicColumn r) = if s = r then 1 else 0
  size_point : t.point.size = a.cols
  /-- The basic solution solves the program. -/
  point : ∀ i < a.rows, a.lhs i t.point.entry + t.artificialValue i = b.get i 0
  infeasibility : t.infeasibility = ∑ k ∈ range a.rows, t.artificialValue k
  size_duals : t.duals.size = a.rows
  size_reducedCosts : t.reducedCosts.size = a.cols
  reducedCosts : ∀ j < a.cols,
    t.reducedCosts.entry j = c.get j 0 - ∑ i ∈ range a.rows, a.get i j * t.duals.entry i
  cost_point : t.cost = ∑ j ∈ range a.cols, c.get j 0 * t.point.entry j
  cost_duals : t.cost = ∑ i ∈ range a.rows, t.duals.entry i * b.get i 0

theorem entry_duals {i : ℕ} (hi : i < t.m) : t.duals.entry i = -t.grid.get t.m (t.n + i) := by
  simp [duals, Vec.entry, Array.getD, hi]

theorem entry_reducedCosts {j : ℕ} (hj : j < t.n) : t.reducedCosts.entry j = t.grid.get t.m j := by
  simp [reducedCosts, Vec.entry, Array.getD, hj]

/-- The constraint rows have the solutions of the program: each row is a combination of its rows,
and none of them is lost. -/
theorem Represents.solves_iff (h : Represents a b c t) (z : ℕ → K) :
    t.Solves z ↔ ∀ i < t.m, a.lhs i z + z (t.n + i) = b.get i 0 := by
  constructor
  · exact h.solves z
  · intro hz r hr
    have hrow := h.rowSum_sub_rhs hz (r := r) (by omega)
    rw [if_neg (by omega), if_neg (by omega)] at hrow
    exact sub_eq_zero.1 hrow

theorem Represents.basicPoint_artificial (h : Represents a b c t) (hb : t.Bookkept) {k : ℕ}
    (hk : k < t.m) : t.basicPoint (t.n + k) = t.artificialValue k :=
  h.place_artificial hb t.rhs hk

/-- A tableau that represents a program reads as one of it. -/
theorem Represents.depicts (h : Represents a b c t) (hb : t.Bookkept) : Depicts a b c t := by
  have hm := h.m_eq
  have hn := h.n_eq
  constructor
  case m_eq => exact hm
  case n_eq => exact hn
  case unit => exact h.unit
  case size_point => rw [size_point, hn]
  case size_duals => simp [duals, hm]
  case size_reducedCosts => simp [reducedCosts, hn]
  case solves_iff =>
    rw [← hm, ← hn]
    exact h.solves_iff
  case costRow =>
    intro z hz
    rw [h.rowSum_sub_rhs (h.solves z hz) (by omega), if_pos rfl, hn]
  case artificialRow =>
    intro z hz
    rw [h.rowSum_sub_rhs (h.solves z hz) (by omega), if_neg (by omega), if_pos rfl, hm, hn]
  case point =>
    intro i hi
    rw [← hm] at hi
    have hlhs : a.lhs i t.point.entry = a.lhs i t.basicPoint :=
      Mat.lhs_congr fun j hj => h.entry_point hb (hn ▸ hj)
    rw [hlhs, ← h.basicPoint_artificial hb hi]
    exact h.lhs_basicPoint hb i hi
  case infeasibility =>
    rw [h.infeasibility_eq hb, ← hm]
    exact sum_congr rfl fun k hk => h.basicPoint_artificial hb (mem_range.1 hk)
  case reducedCosts =>
    intro j hj
    rw [← hn] at hj
    rw [entry_reducedCosts hj, h.reducedCost_eq hj, ← hm]
    congr 1
    exact sum_congr rfl fun i hi => by rw [entry_duals (mem_range.1 hi), mul_comm]
  case cost_point =>
    rw [h.cost_basicPoint hb, ← hn]
    exact sum_congr rfl fun j hj => by rw [h.entry_point hb (mem_range.1 hj)]
  case cost_duals =>
    rw [h.cost_eq, ← hm]
    exact sum_congr rfl fun i hi => by rw [entry_duals (mem_range.1 hi), mul_comm]

/-- Pivots on entries that are not zero all succeed and keep what the tableau represents. -/
theorem Represents.pivots (h : Represents a b c t) (hb : t.Bookkept) {choices : List (ℕ × ℕ)}
    (hchoices : t.Pivotable choices) :
    ∃ t', t.pivots? choices = .ok t' ∧ Represents a b c t' ∧ t'.Bookkept := by
  induction choices generalizing t with
  | nil => exact ⟨t, rfl, h, hb⟩
  | cons choice rest ih =>
    obtain ⟨row, col⟩ := choice
    obtain ⟨hrow, hcol, hp, hrest⟩ := hchoices
    obtain ⟨t', hpivots, hfinal⟩ :=
      ih (h.pivot hb hrow hp) (h.bookkept_pivot hb hrow hcol hp) hrest
    exact ⟨t', (pivots?_cons_of_lt hrow hcol rest).trans hpivots, hfinal⟩

/-- A program whose right-hand side is not negative has a first tableau, and any sequence of pivots
on entries that are not zero leads from it to a tableau of the same program. -/
theorem depicts_of_pivots (a b c : Mat K) (hb : b.size = (a.rows, 1)) (hc : c.size = (a.cols, 1))
    (hnonneg : ∀ r < a.rows, 0 ≤ b.get r 0) :
    ofStandardForm? a b c = .ok (ofStandardForm a b c) ∧
      ∀ choices, (ofStandardForm a b c).Pivotable choices →
        ∃ t, (ofStandardForm a b c).pivots? choices = .ok t ∧ Depicts a b c t := by
  refine ⟨ofStandardForm?_eq_ok (fits_exact _ _) hb hc hnonneg, fun choices hchoices => ?_⟩
  obtain ⟨t, ht, hrep, hkept⟩ :=
    (represents_ofStandardForm a b c).pivots (bookkept_ofStandardForm a b c) hchoices
  exact ⟨t, ht, hrep.depicts hkept⟩

/-- The rows `x₀ + x₁ + x₂ = 4` and `x₀ - x₂ = 2`. The second of the pivots is on a column that is
basic already, and the third one drives a variable out of the basis again. -/
theorem depicts_of_pivots_sample :
    letI := Exact.rational 1000
    let a : Mat ℚ := .ofFn (.general 2 3) fun r j => if r = 0 then 1 else 1 - j
    let b : Mat ℚ := .ofFn (.general 2 1) fun r _ => if r = 0 then 4 else 2
    let c : Mat ℚ := .ofFn (.general 3 1) fun j _ => j + 1
    ∃ t, (ofStandardForm a b c).pivots? [(1, 0), (1, 0), (0, 1), (1, 2)] = .ok t ∧
      Depicts a b c t := by
  let := Exact.rational 1000
  intro a b c
  have hnonneg : ∀ r < a.rows, 0 ≤ b.get r 0 := by decide +kernel
  have hpivotable : (ofStandardForm a b c).Pivotable [(1, 0), (1, 0), (0, 1), (1, 2)] := by
    decide +kernel
  exact (depicts_of_pivots a b c rfl rfl hnonneg).2 _ hpivotable

end Tableau

end QuadProg
