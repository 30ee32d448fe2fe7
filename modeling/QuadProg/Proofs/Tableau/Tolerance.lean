import QuadProg.Proofs.Tableau.Run
import QuadProg.Proofs.Tolerance

/-!
# Runs with tolerances

With tolerances other than zero the ratio test leaves out rows whose entry in the entering column is
negligible next to the right-hand side. Where the right-hand side is not zero this does no harm by
itself: the ratio of such a row is larger than that of any row that is chosen. Harm is done in three
ways. A row with a tiny entry and a right-hand side of zero is left out and its basic variable
driven below zero (`Overlooks`); all rows that limit the entering column are left out, and their
absence is taken for a proof (`Stalls`); or the first phase is left with an artificial variable
above zero (`LeavesResidue`). A run to which none of this happens ends with a verdict that is true
of the program.
-/

namespace QuadProg

open Finset

/-- The ratio test and the end of the first phase compare with tolerances as they are meant. -/
structure Params.ProperRatios {K : Type} [Field K] [LinearOrder K] [Exact K] (par : Params K) :
    Prop where
  problem : par.problem.IsProper
  objective : 0 ≤ par.objective.absolute

theorem Params.ExactRatios.proper {K : Type} [Field K] [LinearOrder K] [Exact K]
    [IsStrictOrderedRing K] {par : Params K} (h : par.ExactRatios) : par.ProperRatios :=
  ⟨h.problem.isProper, h.objective.absolute.ge⟩

theorem Params.standard_properRatios {K : Type} [Field K] [LinearOrder K] [Exact K]
    [IsStrictOrderedRing K] : (Params.standard : Params K).ProperRatios :=
  ⟨Tolerance.isProper_tenth 5 7, (Scalar.tenth_pos 5).le⟩

namespace Tableau

section Defects

variable {α : Type} [Scalar α] (par : Params α) (t : Tableau α)

/-- The row `r` limits how far the variable of the column `col` can grow: its basic variable falls,
or it is an artificial variable that the second phase is to keep at zero. -/
def Limits (col r : ℕ) : Prop :=
  if t.isResidual r then t.grid.get r col ≠ 0 else 0 < t.grid.get r col

/-- A row whose basic variable falls from zero is left out of the ratio test, its entry being as
good as zero as well. -/
def Overlooks : Prop :=
  ∃ col ∈ t.enteringColumn par, ∃ r < t.m, t.isResidual r = false ∧ 0 < t.grid.get r col ∧
    par.problem.isZero (t.rhs r) = true ∧ par.problem.isZero (t.grid.get r col) = true

/-- No row is chosen although there are rows that limit the entering column: they are left out of
the ratio test. -/
def Stalls : Prop :=
  ∃ col ∈ t.enteringColumn par, t.leavingRow par col = none ∧
    ∃ r < t.m, t.Limits col r ∧ par.problem.isSmall (t.rhs r) (t.grid.get r col) = true

/-- An artificial variable is above or below zero in the second phase. -/
def LeavesResidue : Prop := ∃ r < t.m, t.isResidual r = true ∧ t.rhs r ≠ 0

end Defects

variable {K : Type} [Field K] [LinearOrder K] [Exact K]
variable {a b c : Mat K} {t : Tableau K} {par : Params K}

/-! ## What every run keeps -/

section Pivots

variable [IsStrictOrderedRing K]

theorem admitted_of_leavingRow {row col : ℕ} (hl : t.leavingRow par col = some row) :
    row < t.m ∧ t.admitsRow par col row = true ∧
      par.problem.isSmall (t.rhs row) (t.grid.get row col) = false := by
  obtain ⟨hmem, hadmit⟩ := Selection.mem_of_choice_least hl
  have hlt := Selection.value_lt_of_choice_eq_some hl
  refine ⟨List.mem_range.1 hmem, hadmit, ?_⟩
  by_contra hsmall
  rw [Bool.not_eq_false, ← Tolerance.isSmall_abs] at hsmall
  simp only [ratio, Scalar.abs_eq_abs, hsmall, if_true] at hlt
  exact lt_irrefl _ hlt

/-- Whatever the tolerances, a run works on tableaux of one program. -/
theorem Represents.advance (h : Represents a b c t) (hb : t.Bookkept) (hpar : par.problem.IsProper)
    {row col : ℕ} (hnext : t.nextPivot par = .ok (row, col)) :
    Represents a b c (t.advance row col).1 ∧ (t.advance row col).1.Bookkept := by
  obtain ⟨he, hl⟩ := nextPivot_eq_ok_iff.1 hnext
  obtain ⟨hrow, -, hsmall⟩ := admitted_of_leavingRow hl
  have hcol := hb.enteringColumn_lt he
  have hne := hpar.ne_zero hsmall
  have hrep := h.pivot hb hrow hne
  have hkept := h.bookkept_pivot hb hrow hcol hne
  unfold Tableau.advance
  cases t.phase with
  | one => exact ⟨hrep.progress _ _ _, hkept.progress _ _ _⟩
  | two => exact ⟨hrep.progress _ _ _, hkept.progress _ _ _⟩

omit [IsStrictOrderedRing K] in
theorem Represents.enterPhaseTwo (h : Represents a b c t) (par : Params K) (hb : t.Bookkept) :
    Represents a b c (t.enterPhaseTwo par).1 ∧ (t.enterPhaseTwo par).1.Bookkept := by
  rw [enterPhaseTwo_eq]
  split
  · exact ⟨h.progress _ _ _, hb.progress _ _ _⟩
  · exact ⟨h, hb⟩

end Pivots

/-! ## A pivot that overlooks nothing -/

theorem isResidual_pivot (hb : t.Bookkept) {row : ℕ} (hrow : row < t.m) (col r : ℕ) :
    (t.pivot row col).isResidual r = (t.isResidual r && decide (r ≠ row)) := by
  have hbasic := basic_pivot col r (hb.size_basis ▸ hrow)
  have hart : (t.pivot row col).isArtificial r = (t.isArtificial r && decide (r ≠ row)) := by
    rw [Bool.eq_iff_iff, Bool.and_eq_true, isArtificial_iff, isArtificial_iff, hbasic]
    by_cases hr : r = row
    · simp [hr]
    · simp [hr]
  have hphase : (t.pivot row col).phase = t.phase := rfl
  rw [isResidual, isResidual, hart, hphase, Bool.and_assoc]

theorem rhs_eq_zero_of_not_leavesResidue (hclean : ¬ LeavesResidue t) {r : ℕ} (hr : r < t.m)
    (hres : t.isResidual r = true) : t.rhs r = 0 := by
  by_contra hrhs
  exact hclean ⟨r, hr, hres, hrhs⟩

theorem not_leavesResidue_of_phaseOne (hphase : t.phase = .one) : ¬ LeavesResidue t := by
  rintro ⟨r, -, hres, -⟩
  simp [isResidual, hphase] at hres

namespace Admissible

variable [IsStrictOrderedRing K]

/-- A step as long as the ratio of the chosen row keeps the basic variable of another row from
becoming negative, unless that row is overlooked. -/
theorem mul_ratio_le (h : Admissible a b c t) (hpar : par.problem.IsProper) {row col : ℕ}
    (he : t.enteringColumn par = some col) (hl : t.leavingRow par col = some row)
    (hseen : ¬ Overlooks par t) (hrow : t.isResidual row = false) {r : ℕ} (hr : r < t.m)
    (hres : t.isResidual r = false) :
    t.grid.get r col * (t.rhs row / t.grid.get row col) ≤ t.rhs r := by
  obtain ⟨hlt, hadmit, hsmall⟩ := admitted_of_leavingRow hl
  have hnn := h.rhs_nonneg r hr
  have hpos : 0 < t.grid.get row col := by
    simpa [admitsRow, hrow] using (Bool.and_eq_true_iff.1 hadmit).1
  have hratio : 0 ≤ t.rhs row / t.grid.get row col := div_nonneg (h.rhs_nonneg row hlt) hpos.le
  rcases le_or_gt (t.grid.get r col) 0 with hneg | hlimits
  · exact (mul_nonpos_of_nonpos_of_nonneg hneg hratio).trans hnn
  cases hsmall' : par.problem.isSmall (t.rhs r) (t.grid.get r col) with
  | false =>
    have hr' : t.ratio par col r = t.rhs r / t.grid.get r col := h.ratio_eq_div hr hres hsmall'
    have hadmit' : t.admitsRow par col r = true := by
      simp [admitsRow, hlimits, hr', div_nonneg hnn hlimits.le]
    have hle := Selection.value_le_of_choice_eq_some hl (List.mem_range.2 hr) hadmit'
    rw [h.ratio_eq_div hlt hrow hsmall, hr', le_div_iff₀ hlimits] at hle
    rwa [mul_comm]
  | true =>
    cases hzero : par.problem.isZero (t.rhs r) with
    | true =>
      rw [Tolerance.isSmall, hzero, if_pos rfl] at hsmall'
      exact absurd ⟨col, he, r, hr, hres, hlimits, hzero, hsmall'⟩ hseen
    | false =>
      -- The row is left out, but its ratio is above the reciprocal of the relative threshold.
      have hentry := Tolerance.abs_le_of_isSmall hzero hsmall'
      rw [abs_of_pos hlimits, abs_of_nonneg hnn] at hentry
      have hone := hpar.relative_mul_ratio_le_one (h.rhs_nonneg row hlt) hpos hsmall
      calc t.grid.get r col * (t.rhs row / t.grid.get row col)
          ≤ par.problem.relative * t.rhs r * (t.rhs row / t.grid.get row col) :=
            mul_le_mul_of_nonneg_right hentry hratio
        _ = t.rhs r * (par.problem.relative * (t.rhs row / t.grid.get row col)) := by ring
        _ ≤ t.rhs r * 1 := mul_le_mul_of_nonneg_left hone hnn
        _ = t.rhs r := mul_one _

/-- A pivot keeps the tableau admissible if it overlooks no row and leaves no residue. -/
theorem pivot_of_proper (h : Admissible a b c t) (hpar : par.problem.IsProper) {row col : ℕ}
    (he : t.enteringColumn par = some col) (hl : t.leavingRow par col = some row)
    (hseen : ¬ Overlooks par t) (hclean : ¬ LeavesResidue (t.pivot row col)) :
    Admissible a b c (t.pivot row col) := by
  obtain ⟨hrow, hadmit, hsmall⟩ := admitted_of_leavingRow hl
  have hne := hpar.ne_zero hsmall
  have hzero : ∀ r < t.m, (t.pivot row col).isResidual r = true → (t.pivot row col).rhs r = 0 :=
    fun r hr => rhs_eq_zero_of_not_leavesResidue hclean hr
  refine ⟨h.represents.pivot h.bookkept hrow hne,
    h.represents.bookkept_pivot h.bookkept hrow (h.bookkept.enteringColumn_lt he) hne, ?_, hzero⟩
  intro r hr
  have hr' : r < t.m := hr
  cases hres : (t.pivot row col).isResidual r with
  | true => exact (hzero r hr' hres).ge
  | false =>
    rw [rhs_pivot h.represents.shape_eq (by omega) hne]
    cases hrowres : t.isResidual row with
    | true =>
      -- The chosen variable is artificial and zero, so nothing moves.
      rw [h.residual row hrow hrowres, zero_div, mul_zero, sub_zero]
      split
      · exact le_rfl
      · exact h.rhs_nonneg r hr'
    | false =>
      split
      · have hpos : 0 < t.grid.get row col := by
          simpa [admitsRow, hrowres] using (Bool.and_eq_true_iff.1 hadmit).1
        exact div_nonneg (h.rhs_nonneg row hrow) hpos.le
      · next hrr =>
        rw [isResidual_pivot h.bookkept hrow] at hres
        have hres' : t.isResidual r = false := by simpa [hrr] using hres
        exact sub_nonneg.2 (h.mul_ratio_le hpar he hl hseen hrowres hr' hres')

theorem advance_of_proper (h : Admissible a b c t) (hpar : par.problem.IsProper) {row col : ℕ}
    (hnext : t.nextPivot par = .ok (row, col)) (hseen : ¬ Overlooks par t)
    (hclean : ¬ LeavesResidue (t.advance row col).1) :
    Admissible a b c (t.advance row col).1 := by
  obtain ⟨he, hl⟩ := nextPivot_eq_ok_iff.1 hnext
  unfold Tableau.advance at hclean ⊢
  cases hphase : t.phase with
  | one =>
    rw [hphase] at hclean
    exact (h.pivot_of_proper hpar he hl hseen hclean).progress _ _
  | two =>
    rw [hphase] at hclean
    exact (h.pivot_of_proper hpar he hl hseen hclean).progress _ _

/-- Without a leaving row, and if the test did not just leave out the rows that limit the entering
column, there are none. -/
theorem limits_of_leavingRow_eq_none (h : Admissible a b c t) (hpar : par.problem.IsProper)
    (hε : 0 ≤ (Scalar.epsilon : K)) (hmax : (Scalar.epsilon : K) < Scalar.maxValue)
    (hbelow : t.RatiosBelowMax par) {col : ℕ} (he : t.enteringColumn par = some col)
    (hl : t.leavingRow par col = none) (hmoves : ¬ Stalls par t) {r : ℕ} (hr : r < t.m) :
    ¬ t.Limits col r := by
  intro hlimits
  have hsmall : par.problem.isSmall (t.rhs r) (t.grid.get r col) = false := by
    refine Bool.eq_false_of_not_eq_true fun hsmall => hmoves ?_
    exact ⟨col, he, hl, r, hr, hlimits, hsmall⟩
  have hge : t.admitsRow par col r = true → Scalar.maxValue ≤ t.ratio par col r :=
    Selection.le_value_of_choice_eq_none hl (List.mem_range.2 hr)
  unfold Limits at hlimits
  cases hres : t.isResidual r with
  | true =>
    have hrhs := h.residual r hr hres
    have hratio : t.ratio par col r = Scalar.epsilon := by
      rw [hrhs] at hsmall
      simp only [ratio, hrhs, Scalar.abs_eq_abs, abs_zero, hsmall, hres, hpar.isSmall_zero,
        if_true, Bool.false_eq_true, if_false]
    have := hge (by simp [admitsRow, hres, hratio, hε])
    rw [hratio] at this
    exact absurd hmax (not_lt.2 this)
  | false =>
    rw [hres, if_neg Bool.false_ne_true] at hlimits
    have hratio : t.ratio par col r = t.rhs r / t.grid.get r col := h.ratio_eq_div hr hres hsmall
    have hnn := div_nonneg (h.rhs_nonneg r hr) hlimits.le
    have hlt := hbelow col he r hr hlimits
    have := hge (by simp [admitsRow, hlimits, hratio, hnn])
    rw [hratio] at this
    rw [Scalar.abs_eq_abs, abs_of_nonneg (h.rhs_nonneg r hr)] at hlt
    exact absurd hlt (not_lt.2 this)

/-- Without a leaving row in the first phase the ratio test has left out rows. -/
theorem stalls_of_phaseOne (h : Admissible a b c t) (hpar : par.problem.IsProper)
    (hε : 0 ≤ (Scalar.epsilon : K)) (hmax : (Scalar.epsilon : K) < Scalar.maxValue)
    (hbelow : t.RatiosBelowMax par) (hphase : t.phase = .one) {col : ℕ}
    (he : t.enteringColumn par = some col) (hl : t.leavingRow par col = none) : Stalls par t := by
  by_contra hmoves
  have hneg := get_objectiveRow_neg (fun htwo => absurd (htwo.symm.trans hphase) nofun) he
  rw [objectiveRow, hphase] at hneg
  refine h.exists_pos_of_phaseOne (h.bookkept.enteringColumn_lt he) hneg fun r hr => ?_
  have hnot := h.limits_of_leavingRow_eq_none hpar hε hmax hbelow he hl hmoves hr
  have hres : t.isResidual r = false := by simp [isResidual, hphase]
  rw [Limits, hres, if_neg Bool.false_ne_true] at hnot
  exact not_lt.1 hnot

/-- A tableau without a next pivot in the first phase shows that there is no solution, or its ratio
test has left out rows. -/
theorem infeasible_or_stalls (h : Admissible a b c t) (hpar : par.ProperRatios)
    (hε : 0 ≤ (Scalar.epsilon : K)) (hmax : (Scalar.epsilon : K) < Scalar.maxValue)
    (hbelow : t.RatiosBelowMax par) (hdone : t.isPhaseOneDone par = false)
    (hnext : t.nextPivot par = .error .infeasible) :
    (∀ x, ¬ NonnegSolution a b x) ∨ Stalls par t := by
  have hphase := phase_of_infeasible hnext
  rcases nextPivot_eq_error_iff.1 hnext with ⟨he, -⟩ | ⟨col, he, hl, -⟩
  · exact Or.inl (h.infeasible_of_phaseOne hphase
      (infeasibility_ne_zero hpar.objective hphase hdone) he)
  · exact Or.inr (h.stalls_of_phaseOne hpar.problem hε hmax hbelow hphase he hl)

/-- A tableau without a leaving row in the second phase shows a ray along which the objective falls,
or its ratio test has left out rows. -/
theorem unbounded_or_stalls (h : Admissible a b c t) (hpar : par.problem.IsProper)
    (hthr : 0 ≤ par.pivotThreshold) (hε : 0 ≤ (Scalar.epsilon : K))
    (hmax : (Scalar.epsilon : K) < Scalar.maxValue) (hbelow : t.RatiosBelowMax par)
    (hnext : t.nextPivot par = .error .unbounded) :
    (∀ bound : K, ∃ x, NonnegSolution a b x ∧ ∑ j ∈ range a.cols, c.get j 0 * x j < bound) ∨
      Stalls par t := by
  refine or_iff_not_imp_right.2 fun hmoves => ?_
  have hphase := phase_of_unbounded hnext
  rcases nextPivot_eq_error_iff.1 hnext with ⟨-, hs⟩ | ⟨col, he, hl, -⟩
  · simp [statusWithoutColumn, hphase] at hs
  · have hneg := get_objectiveRow_neg (fun _ => hthr) he
    rw [objectiveRow, hphase] at hneg
    refine h.unbounded_of_phaseTwo hphase (h.bookkept.enteringColumn_lt he) hneg fun r hr => ?_
    have hnot := h.limits_of_leavingRow_eq_none hpar hε hmax hbelow he hl hmoves hr
    unfold Limits at hnot
    split at hnot
    · have hzero := not_not.1 hnot
      exact ⟨hzero.le, fun _ => hzero⟩
    · next hres => exact ⟨not_lt.1 hnot, fun h => absurd h hres⟩

omit [IsStrictOrderedRing K] in
/-- If it leaves no residue, entering the second phase keeps a tableau admissible. -/
theorem enterPhaseTwo_of_clean (h : ¬ t.LeavesResidue → Admissible a b c t)
    (hclean : ¬ (t.enterPhaseTwo par).1.LeavesResidue) :
    Admissible a b c (t.enterPhaseTwo par).1 := by
  rw [enterPhaseTwo_eq] at hclean ⊢
  split at hclean
  · next hdone =>
    have hphase : t.phase = .one := of_decide_eq_true (Bool.and_eq_true_iff.1 hdone).1
    have hadm := h (not_leavesResidue_of_phaseOne hphase)
    rw [if_pos hdone]
    exact ⟨hadm.represents.progress _ _ _, hadm.bookkept.progress _ _ _, hadm.rhs_nonneg,
      fun r hr => rhs_eq_zero_of_not_leavesResidue hclean hr⟩
  · next hnot =>
    rw [if_neg hnot]
    exact h hclean

end Admissible

/-! ## Runs -/

theorem exists_endsAt (hway : t.Underway) (fuel : ℕ) :
    ∃ t₁, t₁.Underway ∧ EndsAt par fuel t t₁ := by
  obtain ⟨t₁, -, hway₁, -, hend⟩ := run_induction par Underway fuel hway
    (fun _ _ => underway_enterPhaseTwo) (fun _ _ row col h _ => underway_advance h row col)
  exact ⟨t₁, hway₁, hend⟩

/-- A run that ends as failed has made all its pivots in the first phase. -/
theorem run_failed {fuel : ℕ} (hway : t.Underway) (hstatus : (t.run par fuel).1.status = .failed) :
    (t.run par fuel).1.phase = .one ∧ (t.run par fuel).1.iterations = t.iterations + fuel := by
  obtain ⟨t₁, hway₁, hend⟩ := exists_endsAt hway fuel
  cases hend with
  | stuck status next run =>
    rw [run] at hstatus
    obtain rfl : status = .failed := hstatus
    cases hphase : t₁.phase with
    | one => cases status_of_phaseOne hphase next
    | two => rcases status_of_phaseTwo hphase next with h | h <;> cases h
  | failed phase count run =>
    rw [run]
    exact ⟨phase, count⟩
  | limit phase run =>
    rw [run] at hstatus
    rcases hway₁.status_of_phaseTwo phase with h | h <;> cases hstatus.symm.trans h

/-- A run ends with a feasible basic solution, possibly one that can be improved without end, or
without one. -/
theorem run_status (hway : t.Underway) (fuel : ℕ) :
    ((t.run par fuel).1.status.isFeasible || (t.run par fuel).1.status = .unbounded) = true ∨
      (t.run par fuel).1.status = .infeasible ∨ (t.run par fuel).1.status = .failed := by
  obtain ⟨t₁, hway₁, hend⟩ := exists_endsAt hway fuel
  cases hend with
  | stuck status next run =>
    rw [run]
    cases hphase : t₁.phase with
    | one =>
      obtain rfl := status_of_phaseOne hphase next
      exact Or.inr (Or.inl rfl)
    | two =>
      rcases status_of_phaseTwo hphase next with rfl | rfl
      · exact Or.inl rfl
      · exact Or.inl rfl
  | failed phase count run =>
    rw [run]
    exact Or.inr (Or.inr rfl)
  | limit phase run =>
    rw [run]
    rcases hway₁.status_of_phaseTwo phase with h | h
    · rw [h]
      exact Or.inl rfl
    · rw [h]
      exact Or.inl rfl

section Verdicts

variable [IsStrictOrderedRing K]

theorem not_overlooks_of_exact (hpar : par.ExactRatios) : ¬ Overlooks par t := by
  rintro ⟨col, -, r, -, -, hpos, -, hzero⟩
  rw [Tolerance.isZero_iff hpar.problem] at hzero
  exact hpos.ne' hzero

theorem not_stalls_of_exact (hpar : par.ExactRatios) : ¬ Stalls par t := by
  rintro ⟨col, -, -, r, -, hlimits, hsmall⟩
  rw [Tolerance.isSmall_iff hpar.problem] at hsmall
  unfold Limits at hlimits
  split at hlimits
  · exact hlimits hsmall
  · exact hlimits.ne' hsmall

/-- Whatever the tolerances, a run works on tableaux of one program. -/
theorem represents_run (hpar : par.problem.IsProper) (h : Represents a b c t) (hb : t.Bookkept)
    (fuel : ℕ) : Represents a b c (t.run par fuel).1 ∧ (t.run par fuel).1.Bookkept := by
  obtain ⟨t₁, -, ⟨hrep, hkept⟩, -, hend⟩ := run_induction par
    (fun t => Represents a b c t ∧ t.Bookkept) fuel ⟨h, hb⟩
    (fun t' _ h' => h'.1.enterPhaseTwo par h'.2)
    (fun t' _ row col h' hnext => h'.1.advance h'.2 hpar hnext)
  cases hend with
  | stuck status next run =>
    rw [run]
    exact ⟨hrep.progress _ _ _, hkept.progress _ _ _⟩
  | failed phase count run =>
    rw [run]
    exact ⟨hrep.progress _ _ _, hkept.progress _ _ _⟩
  | limit phase run =>
    rw [run]
    exact ⟨hrep, hkept⟩

/-- A run that gives a program up as infeasible is right, or it overlooked a row or stalled in its
first phase. -/
theorem run_infeasible (hpar : par.ProperRatios) (hε : 0 ≤ (Scalar.epsilon : K))
    (hmax : (Scalar.epsilon : K) < Scalar.maxValue) {fuel : ℕ} (h : Admissible a b c t)
    (hway : t.Underway) (hbelow : ∀ t' ∈ tested par fuel t, t'.RatiosBelowMax par)
    (hstatus : (t.run par fuel).1.status = .infeasible) :
    (∀ x, ¬ NonnegSolution a b x) ∨
      ∃ t' ∈ tested par fuel t, t'.phase = .one ∧ (t'.Overlooks par ∨ t'.Stalls par) := by
  by_cases hseen : ∃ t' ∈ tested par fuel t, t'.phase = .one ∧ (t'.Overlooks par ∨ t'.Stalls par)
  · exact Or.inr hseen
  refine Or.inl ?_
  -- The invariant says nothing about the second phase, so entering it costs nothing.
  obtain ⟨t₁, hmem, ⟨h₁, hway₁⟩, hdone, hend⟩ := run_induction par
    (fun t => (t.phase = .one → Admissible a b c t) ∧ t.Underway) fuel ⟨fun _ => h, hway⟩
    (fun t' _ h' => by
      refine ⟨fun hphase => ?_, underway_enterPhaseTwo h'.2⟩
      have hstays := enterPhaseTwo_of_phaseOne hphase
      rw [hstays] at hphase ⊢
      exact h'.1 hphase)
    (fun t' ht' row col h' hnext => by
      refine ⟨fun hphase => ?_, underway_advance h'.2 row col⟩
      have hphase' : t'.phase = .one := (phase_advance t' row col).symm.trans hphase
      exact (h'.1 hphase').advance_of_proper hpar.problem hnext
        (fun hover => hseen ⟨t', ht', hphase', Or.inl hover⟩)
        (not_leavesResidue_of_phaseOne hphase))
  obtain ⟨hnext, -⟩ := hend.stuck_of_status hway₁ hstatus (Or.inl rfl)
  have hphase := phase_of_infeasible hnext
  refine ((h₁ hphase).infeasible_or_stalls hpar hε hmax (hbelow t₁ hmem) hdone hnext).resolve_right
    fun hstalls => ?_
  exact hseen ⟨t₁, hmem, hphase, Or.inr hstalls⟩

/-- A run that gives a program up as unbounded is right, or it overlooked a row, left a residue or
stalled. -/
theorem run_unbounded (hpar : par.ProperRatios) (hthr : 0 ≤ par.pivotThreshold)
    (hε : 0 ≤ (Scalar.epsilon : K)) (hmax : (Scalar.epsilon : K) < Scalar.maxValue) {fuel : ℕ}
    (h : Admissible a b c t) (hway : t.Underway)
    (hbelow : ∀ t' ∈ tested par fuel t, t'.RatiosBelowMax par)
    (hstatus : (t.run par fuel).1.status = .unbounded) :
    (∀ bound : K, ∃ x, NonnegSolution a b x ∧ ∑ j ∈ range a.cols, c.get j 0 * x j < bound) ∨
      ∃ t' ∈ tested par fuel t, t'.Overlooks par ∨ t'.LeavesResidue ∨ t'.Stalls par := by
  by_cases hseen : ∃ t' ∈ tested par fuel t, t'.Overlooks par ∨ t'.LeavesResidue ∨ t'.Stalls par
  · exact Or.inr hseen
  refine Or.inl ?_
  -- Only a tableau without a residue is admissible, and whether one is left is known of the tested
  -- tableaux, not of those between them: the invariant is conditional.
  obtain ⟨t₁, hmem, ⟨h₁, hway₁⟩, -, hend⟩ := run_induction par
    (fun t => (¬ t.LeavesResidue → Admissible a b c t) ∧ t.Underway) fuel ⟨fun _ => h, hway⟩
    (fun t' _ h' => ⟨Admissible.enterPhaseTwo_of_clean h'.1, underway_enterPhaseTwo h'.2⟩)
    (fun t' ht' row col h' hnext => by
      refine ⟨fun hclean => ?_, underway_advance h'.2 row col⟩
      exact (h'.1 fun hres => hseen ⟨t', ht', Or.inr (Or.inl hres)⟩).advance_of_proper hpar.problem
        hnext (fun hover => hseen ⟨t', ht', Or.inl hover⟩) hclean)
  have hadm := h₁ fun hres => hseen ⟨t₁, hmem, Or.inr (Or.inl hres)⟩
  obtain ⟨hnext, -⟩ := hend.stuck_of_status hway₁ hstatus (Or.inr rfl)
  refine (hadm.unbounded_or_stalls hpar.problem hthr hε hmax (hbelow t₁ hmem) hnext).resolve_right
    fun hstalls => ?_
  exact hseen ⟨t₁, hmem, Or.inr (Or.inr hstalls)⟩

end Verdicts

/-! ## Programs in standard form -/

theorem solve_status (par : Params K) (a b c : Mat K) :
    (((ofStandardForm a b c).solve par).1.status.isFeasible ||
        ((ofStandardForm a b c).solve par).1.status = .unbounded) = true ∨
      ((ofStandardForm a b c).solve par).1.status = .infeasible ∨
      ((ofStandardForm a b c).solve par).1.status = .failed := by
  rw [solve_eq_run par rfl]
  exact run_status (underway_ofStandardForm a b c) par.maxIter

theorem solve_failed (hstatus : ((ofStandardForm a b c).solve par).1.status = .failed) :
    ((ofStandardForm a b c).solve par).1.phase = .one ∧
      ((ofStandardForm a b c).solve par).1.iterations = par.maxIter := by
  rw [solve_eq_run par rfl] at hstatus ⊢
  obtain ⟨hphase, hcount⟩ := run_failed (underway_ofStandardForm a b c) hstatus
  exact ⟨hphase, hcount.trans (Nat.zero_add _)⟩

variable [IsStrictOrderedRing K]

theorem solve_infeasible (hpar : par.ProperRatios) (hε : 0 ≤ (Scalar.epsilon : K))
    (hmax : (Scalar.epsilon : K) < Scalar.maxValue) (hb : ∀ r < a.rows, 0 ≤ b.get r 0)
    (hbelow : ∀ t ∈ tested par par.maxIter (ofStandardForm a b c), t.RatiosBelowMax par)
    (hstatus : ((ofStandardForm a b c).solve par).1.status = .infeasible) :
    (∀ x, ¬ NonnegSolution a b x) ∨ ∃ t ∈ tested par par.maxIter (ofStandardForm a b c),
      t.phase = .one ∧ (t.Overlooks par ∨ t.Stalls par) := by
  rw [solve_eq_run par rfl] at hstatus
  exact run_infeasible hpar hε hmax (admissible_ofStandardForm hb) (underway_ofStandardForm a b c)
    hbelow hstatus

theorem solve_unbounded (hpar : par.ProperRatios) (hthr : 0 ≤ par.pivotThreshold)
    (hε : 0 ≤ (Scalar.epsilon : K)) (hmax : (Scalar.epsilon : K) < Scalar.maxValue)
    (hb : ∀ r < a.rows, 0 ≤ b.get r 0)
    (hbelow : ∀ t ∈ tested par par.maxIter (ofStandardForm a b c), t.RatiosBelowMax par)
    (hstatus : ((ofStandardForm a b c).solve par).1.status = .unbounded) :
    (∀ bound : K, ∃ x, NonnegSolution a b x ∧ ∑ j ∈ range a.cols, c.get j 0 * x j < bound) ∨
      ∃ t ∈ tested par par.maxIter (ofStandardForm a b c),
        t.Overlooks par ∨ t.LeavesResidue ∨ t.Stalls par := by
  rw [solve_eq_run par rfl] at hstatus
  exact run_unbounded hpar hthr hε hmax (admissible_ofStandardForm hb)
    (underway_ofStandardForm a b c) hbelow hstatus

end Tableau

end QuadProg
