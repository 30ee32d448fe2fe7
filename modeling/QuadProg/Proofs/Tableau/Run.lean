import QuadProg.Proofs.Selection
import QuadProg.Proofs.Tableau.Represents
import QuadProg.Tableau.Run

/-!
# Runs in exact arithmetic

With exact scalars and tolerances of zero the simplex method is the textbook one. Every tableau of a
run is `Admissible`: it represents the program, its basic solution is not negative, and in the
second phase the artificial variables that are still basic are zero. A pivot keeps this because the
leaving row has the least ratio, where a row with a basic artificial variable counts as having the
ratio zero as soon as the entering column would move it.

The run ends with a `Verdict` that is true of the program (`run_sound`).
-/

namespace QuadProg

open Finset

/-- The ratio test and the end of the first phase compare without tolerance. -/
structure Params.ExactRatios {K : Type} [Field K] [LinearOrder K] [Exact K] (par : Params K) :
    Prop where
  problem : par.problem.IsExact
  objective : par.objective.IsExact

/-- In addition no column enters that would raise the cost. -/
structure Params.ExactPivots {K : Type} [Field K] [LinearOrder K] [Exact K] (par : Params K) :
    Prop extends par.ExactRatios where
  threshold : 0 ≤ par.pivotThreshold

/-- The point is a solution of `A x = b` that is not negative. -/
structure NonnegSolution {K : Type} [Field K] [LinearOrder K] [Exact K] (a b : Mat K)
    (x : ℕ → K) : Prop where
  nonneg : ∀ j < a.cols, 0 ≤ x j
  solves : ∀ i < a.rows, a.lhs i x = b.get i 0

namespace Tableau

/-- The tableaux whose ratios a run with `fuel` pivots compares. -/
def tested {α : Type} [Scalar α] (par : Params α) : ℕ → Tableau α → List (Tableau α)
  | 0, t => [(t.enterPhaseTwo par).1]
  | fuel + 1, t =>
    let t₁ := (t.enterPhaseTwo par).1
    t₁ :: match t₁.nextPivot par with
      | .ok (row, col) => tested par fuel (t₁.advance row col).1
      | .error _ => []

/-- Every ratio of a right-hand side and a positive entry of the entering column is below the number
that stands for no ratio. -/
def RatiosBelowMax {α : Type} [Scalar α] (par : Params α) (t : Tableau α) : Prop :=
  ∀ col ∈ t.enteringColumn par, ∀ r < t.m, 0 < t.grid.get r col →
    Scalar.abs (t.rhs r) / t.grid.get r col < Scalar.maxValue

instance {α : Type} [Scalar α] (par : Params α) (t : Tableau α) :
    Decidable (t.RatiosBelowMax par) :=
  inferInstanceAs (Decidable (∀ col ∈ t.enteringColumn par, _))

/-! ## The course of a run -/

section Course

variable {α : Type} [Scalar α] {par : Params α}

theorem nextPivot_eq_ok_iff {t : Tableau α} {row col : ℕ} : t.nextPivot par = .ok (row, col) ↔
    t.enteringColumn par = some col ∧ t.leavingRow par col = some row := by
  unfold nextPivot
  cases he : t.enteringColumn par with
  | none => simp
  | some col' =>
    dsimp only
    cases hl : t.leavingRow par col' with
    | none =>
      simp only [Option.some.injEq, reduceCtorEq, false_iff, not_and]
      rintro rfl
      simp [hl]
    | some row' =>
      simp only [Except.ok.injEq, Prod.mk.injEq, Option.some.injEq]
      constructor
      · rintro ⟨rfl, rfl⟩
        exact ⟨rfl, hl⟩
      · rintro ⟨rfl, hrow⟩
        rw [hl] at hrow
        exact ⟨Option.some.inj hrow, rfl⟩

/-- A tableau without a next pivot lacks a column to enter, or a row to leave. -/
theorem nextPivot_eq_error_iff {t : Tableau α} {status : Status} : t.nextPivot par = .error status ↔
    (t.enteringColumn par = none ∧ t.statusWithoutColumn = status) ∨
      ∃ col, t.enteringColumn par = some col ∧ t.leavingRow par col = none ∧
        t.statusWithoutRow = status := by
  unfold nextPivot
  cases he : t.enteringColumn par with
  | none => simp
  | some col =>
    cases hl : t.leavingRow par col with
    | none => simp [hl]
    | some row => simp [hl]

/-- Without a next pivot in the first phase the program is given up as infeasible. -/
theorem status_of_phaseOne {t : Tableau α} {status : Status} (hphase : t.phase = .one)
    (hnext : t.nextPivot par = .error status) : status = .infeasible := by
  rcases nextPivot_eq_error_iff.1 hnext with ⟨-, rfl⟩ | ⟨col, -, -, rfl⟩
  · simp [statusWithoutColumn, hphase]
  · simp [statusWithoutRow, hphase]

/-- Without a next pivot in the second phase the basic solution is optimal, or it can be improved
without end. -/
theorem status_of_phaseTwo {t : Tableau α} {status : Status} (hphase : t.phase = .two)
    (hnext : t.nextPivot par = .error status) : status = .optimal ∨ status = .unbounded := by
  rcases nextPivot_eq_error_iff.1 hnext with ⟨-, rfl⟩ | ⟨col, -, -, rfl⟩
  · simp [statusWithoutColumn, hphase]
  · simp [statusWithoutRow, hphase]

theorem phase_of_infeasible {t : Tableau α} (hnext : t.nextPivot par = .error .infeasible) :
    t.phase = .one := by
  cases hphase : t.phase with
  | one => rfl
  | two => rcases status_of_phaseTwo hphase hnext with h | h <;> cases h

theorem phase_of_unbounded {t : Tableau α} (hnext : t.nextPivot par = .error .unbounded) :
    t.phase = .two := by
  cases hphase : t.phase with
  | one => cases status_of_phaseOne hphase hnext
  | two => rfl

theorem enterPhaseTwo_eq (par : Params α) (t : Tableau α) :
    (t.enterPhaseTwo par).1 =
      if t.isPhaseOneDone par then { t with phase := .two, status := .feasible } else t := by
  unfold enterPhaseTwo
  split <;> rfl

theorem enterPhaseTwo_of_phaseTwo {t : Tableau α} (hphase : t.phase = .two) :
    (t.enterPhaseTwo par).1 = t := by
  simp [enterPhaseTwo_eq, isPhaseOneDone, hphase]

/-- A tableau that is still in the first phase has not entered the second. -/
theorem enterPhaseTwo_of_phaseOne {t : Tableau α} (hphase : (t.enterPhaseTwo par).1.phase = .one) :
    (t.enterPhaseTwo par).1 = t := by
  rw [enterPhaseTwo_eq] at hphase ⊢
  split at hphase
  · cases hphase
  · next hnot => rw [if_neg hnot]

theorem status_enterPhaseTwo (par : Params α) (t : Tableau α) : (t.enterPhaseTwo par).1.status =
    if t.isPhaseOneDone par then .feasible else t.status := by
  rw [enterPhaseTwo_eq]
  split <;> rfl

/-- After the first phase has been left if it is done, it is not done. -/
theorem isPhaseOneDone_enterPhaseTwo (par : Params α) (t : Tableau α) :
    (t.enterPhaseTwo par).1.isPhaseOneDone par = false := by
  rw [enterPhaseTwo_eq]
  split
  · simp [isPhaseOneDone]
  · next h => simpa using h

theorem iterations_enterPhaseTwo (par : Params α) (t : Tableau α) :
    (t.enterPhaseTwo par).1.iterations = t.iterations := by
  rw [enterPhaseTwo_eq]
  split <;> rfl

/-- Advancing is pivoting and keeping count. -/
theorem advance_eq (t : Tableau α) (row col : ℕ) : (t.advance row col).1 =
    { t.pivot row col with
      status := match t.phase with
        | .one => t.status
        | .two => .approximate
      iterations := t.iterations + 1 } := by
  unfold advance
  cases t.phase with
  | one => rfl
  | two => rfl

theorem iterations_advance (t : Tableau α) (row col : ℕ) :
    (t.advance row col).1.iterations = t.iterations + 1 := by rw [advance_eq]

theorem phase_advance (t : Tableau α) (row col : ℕ) : (t.advance row col).1.phase = t.phase := by
  rw [advance_eq]
  rfl

theorem status_advance (t : Tableau α) (row col : ℕ) : (t.advance row col).1.status =
    match t.phase with
    | .one => t.status
    | .two => .approximate := by
  rw [advance_eq]

/-- What is kept by entering the second phase and by every pivot holds throughout a run. -/
theorem forall_mem_tested (P : Tableau α → Prop) (hswitch : ∀ t, P t → P (t.enterPhaseTwo par).1)
    (hadvance : ∀ t row col, P t → t.nextPivot par = .ok (row, col) → P (t.advance row col).1)
    (fuel : ℕ) {t : Tableau α} (h : P t) : ∀ t' ∈ tested par fuel t, P t' := by
  induction fuel generalizing t with
  | zero =>
    intro t' hmem
    exact List.mem_singleton.1 hmem ▸ hswitch t h
  | succ fuel ih =>
    intro t' hmem
    rw [tested] at hmem
    rcases List.mem_cons.1 hmem with rfl | hmem
    · exact hswitch t h
    · split at hmem
      · next row col hnext => exact ih (hadvance _ row col (hswitch t h) hnext) t' hmem
      · cases hmem

/-- The status of a run that is not at its end. -/
def Underway (t : Tableau α) : Prop :=
  match t.phase with
  | .one => t.status = .valid
  | .two => t.status = .feasible ∨ t.status = .approximate

omit [Scalar α] in
theorem Underway.status_of_phaseTwo {t : Tableau α} (h : t.Underway) (hphase : t.phase = .two) :
    t.status = .feasible ∨ t.status = .approximate := by
  unfold Underway at h
  rwa [hphase] at h

theorem underway_enterPhaseTwo {t : Tableau α} (h : t.Underway) :
    (t.enterPhaseTwo par).1.Underway := by
  rw [enterPhaseTwo_eq]
  split
  · exact Or.inl rfl
  · exact h

theorem underway_advance {t : Tableau α} (h : t.Underway) (row col : ℕ) :
    (t.advance row col).1.Underway := by
  unfold Underway at h ⊢
  cases hphase : t.phase with
  | one =>
    rw [hphase] at h
    simpa [advance, hphase, pivot] using h
  | two => simp [advance, hphase, moveTo, pivot]

theorem underway_ofStandardForm (a b c : Mat α) : (ofStandardForm a b c).Underway := rfl

/-- A run from `t` of at most `fuel` pivots ends at `t₁`, before its last status is set. -/
inductive EndsAt (par : Params α) (fuel : ℕ) (t t₁ : Tableau α) : Prop
  /-- There is no next pivot. -/
  | stuck (status : Status) (next : t₁.nextPivot par = .error status)
      (run : (t.run par fuel).1 = { t₁ with status })
  /-- The limit of pivots is reached in the first phase. -/
  | failed (phase : t₁.phase = .one) (count : t₁.iterations = t.iterations + fuel)
      (run : (t.run par fuel).1 = { t₁ with status := .failed })
  /-- The limit of pivots is reached in the second phase. -/
  | limit (phase : t₁.phase = .two) (run : (t.run par fuel).1 = t₁)

/-- Infeasible or unbounded is what the last tableau says, never a limit that was reached. -/
theorem EndsAt.stuck_of_status {fuel : ℕ} {t t₁ : Tableau α} (hend : EndsAt par fuel t t₁)
    (hway : t₁.Underway) {status : Status} (hstatus : (t.run par fuel).1.status = status)
    (hnone : status = .infeasible ∨ status = .unbounded) :
    t₁.nextPivot par = .error status ∧ (t.run par fuel).1 = { t₁ with status } := by
  cases hend with
  | stuck status' next run =>
    obtain rfl : status' = status := by rwa [run] at hstatus
    exact ⟨next, run⟩
  | failed phase count run =>
    rw [run] at hstatus
    rcases hnone with rfl | rfl <;> cases hstatus
  | limit phase run =>
    rw [run] at hstatus
    rcases hway.status_of_phaseTwo phase with h | h <;> rcases hnone with rfl | rfl <;>
      cases hstatus.symm.trans h

theorem run_of_error {fuel : ℕ} {t : Tableau α} {status : Status}
    (hnext : (t.enterPhaseTwo par).1.nextPivot par = .error status) :
    (t.run par fuel).1 = { (t.enterPhaseTwo par).1 with status } := by
  unfold run
  generalize t.enterPhaseTwo par = entry at hnext ⊢
  obtain ⟨t₁, trace⟩ := entry
  dsimp only at hnext ⊢
  rw [hnext]
  rfl

theorem run_zero_of_ok {t : Tableau α} {choice : ℕ × ℕ}
    (hnext : (t.enterPhaseTwo par).1.nextPivot par = .ok choice) :
    (t.run par 0).1 = match (t.enterPhaseTwo par).1.phase with
      | .one => { (t.enterPhaseTwo par).1 with status := .failed }
      | .two => (t.enterPhaseTwo par).1 := by
  unfold run
  generalize t.enterPhaseTwo par = entry at hnext ⊢
  obtain ⟨⟨n, m, grid, basis, columns, phase, status, iterations⟩, trace⟩ := entry
  dsimp only at hnext ⊢
  rw [hnext]
  cases phase with
  | one => rfl
  | two => rfl

theorem run_succ_of_ok (fuel : ℕ) {t : Tableau α} {row col : ℕ}
    (hnext : (t.enterPhaseTwo par).1.nextPivot par = .ok (row, col)) :
    (t.run par (fuel + 1)).1 = (((t.enterPhaseTwo par).1.advance row col).1.run par fuel).1 := by
  rw [run]
  generalize t.enterPhaseTwo par = entry at hnext ⊢
  obtain ⟨t₁, trace⟩ := entry
  dsimp only at hnext ⊢
  rw [hnext]

variable (par) in
/-- What holds at the start of a run and is kept by entering the second phase and by every pivot
holds where the run ends. -/
theorem run_induction (P : Tableau α → Prop) (fuel : ℕ) {t : Tableau α} (h : P t)
    (hswitch : ∀ t', (t'.enterPhaseTwo par).1 ∈ tested par fuel t → P t' →
      P (t'.enterPhaseTwo par).1)
    (hadvance : ∀ t' ∈ tested par fuel t, ∀ row col, P t' → t'.nextPivot par = .ok (row, col) →
      P (t'.advance row col).1) :
    ∃ t₁ ∈ tested par fuel t, P t₁ ∧ t₁.isPhaseOneDone par = false ∧ EndsAt par fuel t t₁ := by
  induction fuel generalizing t with
  | zero =>
    have hmem : (t.enterPhaseTwo par).1 ∈ tested par 0 t := List.mem_singleton_self _
    refine ⟨_, hmem, hswitch t hmem h, isPhaseOneDone_enterPhaseTwo par t, ?_⟩
    cases hnext : (t.enterPhaseTwo par).1.nextPivot par with
    | error status => exact .stuck status hnext (run_of_error hnext)
    | ok choice =>
      have hrun := run_zero_of_ok hnext
      cases hphase : (t.enterPhaseTwo par).1.phase with
      | one =>
        rw [hphase] at hrun
        exact .failed hphase (iterations_enterPhaseTwo par t) hrun
      | two =>
        rw [hphase] at hrun
        exact .limit hphase hrun
  | succ fuel ih =>
    have hmem : (t.enterPhaseTwo par).1 ∈ tested par (fuel + 1) t := List.mem_cons_self
    have h₁ := hswitch t hmem h
    cases hnext : (t.enterPhaseTwo par).1.nextPivot par with
    | error status =>
      exact ⟨_, hmem, h₁, isPhaseOneDone_enterPhaseTwo par t, .stuck status hnext
        (run_of_error hnext)⟩
    | ok choice =>
      obtain ⟨row, col⟩ := choice
      have hrun := run_succ_of_ok fuel hnext
      have hlater : ∀ t', t' ∈ tested par fuel ((t.enterPhaseTwo par).1.advance row col).1 →
          t' ∈ tested par (fuel + 1) t := by
        intro t' ht'
        rw [tested, hnext]
        exact List.mem_cons_of_mem _ ht'
      obtain ⟨t₂, hmem₂, h₂, hdone₂, hend⟩ := ih (hadvance _ hmem row col h₁ hnext)
        (fun t' ht' => hswitch t' (hlater _ ht')) (fun t' ht' => hadvance t' (hlater _ ht'))
      refine ⟨t₂, hlater t₂ hmem₂, h₂, hdone₂, ?_⟩
      cases hend with
      | stuck status next run => exact .stuck status next (hrun.trans run)
      | failed phase count run =>
        rw [iterations_advance, iterations_enterPhaseTwo, Nat.add_assoc, Nat.add_comm 1] at count
        exact .failed phase count (hrun.trans run)
      | limit phase run => exact .limit phase (hrun.trans run)

theorem solve_eq_run (par : Params α) {t : Tableau α} (h : t.iterations = 0) :
    (t.solve par).1 = (t.run par par.maxIter).1 := by
  rw [solve, h]
  rfl

theorem events_solve (par : Params α) (t : Tableau α) :
    (t.solve par).2.events = (t.run par (par.maxIter - t.iterations)).2.events := by
  simp [solve]

end Course

variable {K : Type} [Field K] [LinearOrder K] [Exact K]
variable {a b c : Mat K} {t : Tableau K} {par : Params K}

/-- The state of the tableau between two pivots. -/
structure Admissible (a b c : Mat K) (t : Tableau K) : Prop where
  represents : Represents a b c t
  bookkept : t.Bookkept
  /-- The basic solution is not negative. -/
  rhs_nonneg : ∀ r < t.m, 0 ≤ t.rhs r
  /-- In the second phase an artificial variable that is still basic is zero. -/
  residual : ∀ r < t.m, t.isResidual r = true → t.rhs r = 0

/-! ## What is no part of the program -/

/-- Phase, status and count do not matter to what a tableau represents. -/
theorem Represents.progress (h : Represents a b c t) (phase : Phase) (status : Status)
    (iterations : ℕ) : Represents a b c { t with phase, status, iterations } := by
  obtain ⟨hm, hn, hshape, hentry, hsolves, hunit⟩ := h
  exact ⟨hm, hn, hshape, hentry, hsolves, hunit⟩

omit [Field K] [LinearOrder K] [Exact K] in
theorem Bookkept.progress (h : t.Bookkept) (phase : Phase) (status : Status) (iterations : ℕ) :
    Bookkept { t with phase, status, iterations } := by
  obtain ⟨hsize, hcount, hart, hstr, hcon, hinj⟩ := h
  exact ⟨hsize, hcount, hart, hstr, hcon, hinj⟩

theorem Bookkept.enteringColumn_lt {α : Type} [Scalar α] {t : Tableau α} {par : Params α}
    (h : t.Bookkept) {col : ℕ} (he : t.enteringColumn par = some col) : col < t.n := by
  obtain ⟨hmem, -⟩ := Selection.mem_of_choice_least he
  rw [← h.count_columns]
  exact (WorkingSet.mem_others.1 hmem).1

/-! ## The basic solution -/

namespace Admissible

variable [IsStrictOrderedRing K]

theorem basicPoint_nonneg (h : Admissible a b c t) (j : ℕ) : 0 ≤ t.basicPoint j := by
  unfold basicPoint place
  refine sum_nonneg fun r hr => ?_
  split
  · exact h.rhs_nonneg r (mem_range.1 hr)
  · exact le_rfl

theorem nonnegSolution_basicPoint (h : Admissible a b c t) (hphase : t.phase = .two) :
    NonnegSolution a b t.basicPoint := by
  refine ⟨fun j _ => h.basicPoint_nonneg j, fun i hi => ?_⟩
  rw [← h.represents.m_eq] at hi
  have hzero : t.basicPoint (t.n + i) = 0 := by
    rw [basicPoint, h.represents.place_artificial h.bookkept _ hi]
    split
    · next ha => exact h.residual i hi (by simp [isResidual, hphase, ha])
    · rfl
  have := h.represents.lhs_basicPoint h.bookkept i hi
  rwa [hzero, add_zero] at this

/-! ## Changes of status and phase -/

omit [IsStrictOrderedRing K] in
theorem progress (h : Admissible a b c t) (status : Status) (iterations : ℕ) :
    Admissible a b c { t with status, iterations } :=
  ⟨h.represents.progress _ _ _, h.bookkept.progress _ _ _, h.rhs_nonneg, h.residual⟩

/-- When the first phase is done, all artificial variables are zero. -/
theorem rhs_eq_zero_of_isPhaseOneDone (h : Admissible a b c t) (hpar : par.ExactRatios)
    (hdone : t.isPhaseOneDone par = true) {r : ℕ} (hr : r < t.m) (ha : t.isArtificial r = true) :
    t.rhs r = 0 := by
  simp only [isPhaseOneDone, Bool.and_eq_true, Bool.or_eq_true, decide_eq_true_eq] at hdone
  rcases hdone.2 with hnone | hzero
  · exfalso
    have hsize : r < t.basis.size := by rw [h.bookkept.size_basis]; exact hr
    have hmem : t.basic r ∈ t.basis := by simp [basic, Array.getD, hsize]
    have := Array.countP_eq_zero.1 hnone _ hmem
    exact this (by simpa using (isArtificial_iff t r).1 ha)
  · rw [Tolerance.isZero_iff hpar.objective, h.represents.infeasibility_eq h.bookkept,
      sum_eq_zero_iff_of_nonneg fun k _ => h.basicPoint_nonneg _] at hzero
    have := hzero r (mem_range.2 hr)
    rwa [basicPoint, h.represents.place_artificial h.bookkept _ hr, if_pos ha] at this

theorem enterPhaseTwo (h : Admissible a b c t) (hpar : par.ExactRatios) :
    Admissible a b c (t.enterPhaseTwo par).1 := by
  rw [enterPhaseTwo_eq]
  split
  · next hdone =>
    have hzero : ∀ r < t.m, t.isArtificial r = true → t.rhs r = 0 := fun r hr ha =>
      h.rhs_eq_zero_of_isPhaseOneDone hpar hdone hr ha
    exact ⟨h.represents.progress _ _ _, h.bookkept.progress _ _ _, h.rhs_nonneg,
      fun r hr hres => hzero r hr (Bool.and_eq_true_iff.1 hres).2⟩
  · exact h

/-! ## Choosing a pivot -/

theorem get_objectiveRow_neg (hthr : t.phase = .two → 0 ≤ par.pivotThreshold) {col : ℕ}
    (he : t.enteringColumn par = some col) : t.grid.get t.objectiveRow col < 0 := by
  refine (Selection.value_lt_of_choice_eq_some he).trans_le ?_
  cases hphase : t.phase with
  | one => exact le_rfl
  | two => exact neg_nonpos.2 (hthr hphase)

/-- Without an entering column no reduced cost is negative, up to the threshold in the second
phase. -/
theorem of_enteringColumn_eq_none (h : Admissible a b c t)
    (hthr : t.phase = .two → 0 ≤ par.pivotThreshold) (he : t.enteringColumn par = none) {j : ℕ}
    (hj : j < t.n) :
    (match t.phase with | .one => 0 | .two => -par.pivotThreshold) ≤
      t.grid.get t.objectiveRow j := by
  by_cases hmem : t.columns.contains j = true
  · obtain ⟨r, hr, hrj⟩ := (h.bookkept.contains_iff j).1 hmem
    have hcol : t.basicColumn r = j := by rw [basicColumn, if_neg (by omega)]; omega
    have hobj : t.objectiveRow < t.m + 2 ∧ t.objectiveRow ≠ r := by
      unfold objectiveRow
      split <;> omega
    rw [← hcol, h.represents.unit r hr _ hobj.1, if_neg hobj.2]
    cases hphase : t.phase with
    | one => exact le_rfl
    | two => exact neg_nonpos.2 (hthr hphase)
  · refine Selection.le_value_of_choice_eq_none he (WorkingSet.mem_others.2 ⟨?_, ?_⟩) rfl
    · rw [h.bookkept.count_columns]; exact hj
    · simpa using hmem

theorem ratio_of_isResidual (h : Admissible a b c t) (hpar : par.ExactRatios)
    (hε : (Scalar.epsilon : K) = 0) {r : ℕ} (hr : r < t.m) (hres : t.isResidual r = true)
    (col : ℕ) : t.ratio par col r = if t.grid.get r col = 0 then Scalar.maxValue else 0 := by
  have hsmall : par.problem.isSmall 0 (t.grid.get r col) = true ↔ t.grid.get r col = 0 :=
    Tolerance.isSmall_iff hpar.problem _ _
  have hsmall' : par.problem.isSmall (t.grid.get r col) 0 = true :=
    (Tolerance.isSmall_iff hpar.problem _ _).2 rfl
  unfold ratio
  simp only [h.residual r hr hres, Scalar.abs_eq_abs, abs_zero, hsmall, hres, hsmall', if_true, hε]

theorem ratio_eq_div (h : Admissible a b c t) {r col : ℕ} (hr : r < t.m)
    (hres : t.isResidual r = false)
    (hsmall : par.problem.isSmall (t.rhs r) (t.grid.get r col) = false) :
    t.ratio par col r = t.rhs r / t.grid.get r col := by
  unfold ratio
  simp only [Scalar.abs_eq_abs, hsmall, hres, abs_of_nonneg (h.rhs_nonneg r hr), if_false,
    Bool.false_eq_true]

theorem ratio_of_not_isResidual (h : Admissible a b c t) (hpar : par.ExactRatios) {r : ℕ}
    (hr : r < t.m) (hres : t.isResidual r = false) {col : ℕ} (hpos : 0 < t.grid.get r col) :
    t.ratio par col r = t.rhs r / t.grid.get r col := by
  refine h.ratio_eq_div hr hres (Bool.eq_false_of_not_eq_true ?_)
  rw [Tolerance.isSmall_iff hpar.problem]
  exact hpos.ne'

/-- The pivot of the leaving row is not zero, and the ratio of that row is a quotient, not negative.
-/
theorem ratio_of_leavingRow (h : Admissible a b c t) (hpar : par.ExactRatios)
    (hε : (Scalar.epsilon : K) = 0) {row col : ℕ} (hl : t.leavingRow par col = some row) :
    row < t.m ∧ t.grid.get row col ≠ 0 ∧ 0 ≤ t.rhs row / t.grid.get row col ∧
      t.ratio par col row = t.rhs row / t.grid.get row col := by
  obtain ⟨hmem, hadmit⟩ := Selection.mem_of_choice_least hl
  have hlt := Selection.value_lt_of_choice_eq_some hl
  have hrow : row < t.m := List.mem_range.1 hmem
  simp only [admitsRow, Bool.and_eq_true, Bool.or_eq_true, decide_eq_true_eq] at hadmit
  by_cases hres : t.isResidual row = true
  · have hratio := h.ratio_of_isResidual hpar hε hrow hres col
    have hne : t.grid.get row col ≠ 0 := by
      intro hz
      rw [hratio, if_pos hz] at hlt
      exact absurd hlt (lt_irrefl _)
    rw [if_neg hne] at hratio
    have hquotient : t.rhs row / t.grid.get row col = 0 := by
      rw [h.residual row hrow hres, zero_div]
    exact ⟨hrow, hne, hquotient.ge, hratio.trans hquotient.symm⟩
  · have hpos : 0 < t.grid.get row col := hadmit.1.resolve_left hres
    exact ⟨hrow, hpos.ne', div_nonneg (h.rhs_nonneg row hrow) hpos.le,
      h.ratio_of_not_isResidual hpar hrow (by simpa using hres) hpos⟩

/-- The leaving row: the pivot is not zero, and raising the entering variable by the ratio keeps
every basic variable from becoming negative and every residual one at zero. -/
theorem of_leavingRow_eq_some (h : Admissible a b c t) (hpar : par.ExactRatios)
    (hε : (Scalar.epsilon : K) = 0) {row col : ℕ} (hl : t.leavingRow par col = some row) :
    row < t.m ∧ t.grid.get row col ≠ 0 ∧ 0 ≤ t.rhs row / t.grid.get row col ∧
      ∀ r < t.m, t.grid.get r col * (t.rhs row / t.grid.get row col) ≤ t.rhs r ∧
        (t.isResidual r = true → t.grid.get r col * (t.rhs row / t.grid.get row col) = 0) := by
  obtain ⟨hrow, hne, hnn, hratio⟩ := h.ratio_of_leavingRow hpar hε hl
  have hle : ∀ r < t.m, t.admitsRow par col r = true →
      t.rhs row / t.grid.get row col ≤ t.ratio par col r := by
    intro r hr ha
    rw [← hratio]
    exact Selection.value_le_of_choice_eq_some hl (List.mem_range.2 hr) ha
  refine ⟨hrow, hne, hnn, fun r hr => ?_⟩
  by_cases hres : t.isResidual r = true
  · have hzero : t.grid.get r col * (t.rhs row / t.grid.get row col) = 0 := by
      by_cases hz : t.grid.get r col = 0
      · rw [hz, zero_mul]
      · have hr0 : t.ratio par col r = 0 := by
          rw [h.ratio_of_isResidual hpar hε hr hres, if_neg hz]
        have := hle r hr (by simp [admitsRow, hres, hr0])
        rw [hr0] at this
        rw [le_antisymm this hnn, mul_zero]
    exact ⟨hzero.le.trans (h.rhs_nonneg r hr), fun _ => hzero⟩
  · refine ⟨?_, fun hc => absurd hc hres⟩
    rcases le_or_gt (t.grid.get r col) 0 with hneg | hpos
    · exact (mul_nonpos_of_nonpos_of_nonneg hneg hnn).trans (h.rhs_nonneg r hr)
    · have hr' := h.ratio_of_not_isResidual hpar hr (by simpa using hres) hpos
      have hratio_nn : 0 ≤ t.ratio par col r := by
        rw [hr']
        exact div_nonneg (h.rhs_nonneg r hr) hpos.le
      have := hle r hr (by simp [admitsRow, hpos, hratio_nn])
      rw [hr', le_div_iff₀ hpos] at this
      rwa [mul_comm]

/-- Without a leaving row no basic variable limits the entering one, and no residual one is moved.
-/
theorem of_leavingRow_eq_none (h : Admissible a b c t) (hpar : par.ExactRatios)
    (hε : (Scalar.epsilon : K) = 0) (hmax : 0 < (Scalar.maxValue : K)) {col : ℕ}
    (hbelow : ∀ r < t.m, 0 < t.grid.get r col →
      Scalar.abs (t.rhs r) / t.grid.get r col < Scalar.maxValue)
    (hl : t.leavingRow par col = none) {r : ℕ} (hr : r < t.m) :
    t.grid.get r col ≤ 0 ∧ (t.isResidual r = true → t.grid.get r col = 0) := by
  have hge : t.admitsRow par col r = true → Scalar.maxValue ≤ t.ratio par col r :=
    Selection.le_value_of_choice_eq_none hl (List.mem_range.2 hr)
  by_cases hres : t.isResidual r = true
  · have hzero : t.grid.get r col = 0 := by
      by_contra hz
      have hr0 : t.ratio par col r = 0 := by
        rw [h.ratio_of_isResidual hpar hε hr hres, if_neg hz]
      have := hge (by simp [admitsRow, hres, hr0])
      rw [hr0] at this
      exact absurd hmax (not_lt.2 this)
    exact ⟨hzero.le, fun _ => hzero⟩
  · refine ⟨?_, fun hc => absurd hc hres⟩
    by_contra hpos
    have hpos := not_le.1 hpos
    have hr' := h.ratio_of_not_isResidual hpar hr (by simpa using hres) hpos
    have hnn : 0 ≤ t.ratio par col r := by
      rw [hr']
      exact div_nonneg (h.rhs_nonneg r hr) hpos.le
    have hlt := hbelow r hr hpos
    have := hge (by simp [admitsRow, hpos, hnn])
    rw [hr', ← abs_of_nonneg (h.rhs_nonneg r hr)] at this
    exact absurd hlt (not_lt.2 this)

/-- A pivot on the chosen row and column keeps the tableau admissible. -/
theorem pivot (h : Admissible a b c t) (hpar : par.ExactRatios) (hε : (Scalar.epsilon : K) = 0)
    {row col : ℕ} (he : t.enteringColumn par = some col) (hl : t.leavingRow par col = some row) :
    Admissible a b c (t.pivot row col) := by
  have hcol := h.bookkept.enteringColumn_lt he
  obtain ⟨hrow, hne, hnn, hstep⟩ := h.of_leavingRow_eq_some hpar hε hl
  refine ⟨h.represents.pivot h.bookkept hrow hne,
    h.represents.bookkept_pivot h.bookkept hrow hcol hne, ?_, ?_⟩
  · intro r hr
    have hr' : r < t.m := hr
    rw [rhs_pivot h.represents.shape_eq (by omega) hne]
    split
    · exact hnn
    · exact sub_nonneg.2 (hstep r hr').1
  · intro r hr hres
    have hr' : r < t.m := hr
    have hsize : row < t.basis.size := by rw [h.bookkept.size_basis]; exact hrow
    have hart := (isArtificial_iff _ r).1 (Bool.and_eq_true_iff.1 hres).2
    rw [basic_pivot col r hsize] at hart
    split at hart
    · omega
    · next hrr =>
      have hres' : t.isResidual r = true := by
        refine Bool.and_eq_true_iff.2 ⟨(Bool.and_eq_true_iff.1 hres).1, ?_⟩
        exact (isArtificial_iff t r).2 hart
      rw [rhs_pivot h.represents.shape_eq (by omega) hne, if_neg hrr, (hstep r hr').2 hres',
        sub_zero]
      exact h.residual r hr' hres'

/-! ## The end of a run -/

theorem direction_nonneg {col : ℕ} (hle : ∀ r < t.m, t.grid.get r col ≤ 0) (j : ℕ) :
    0 ≤ t.direction col j := by
  have hplace : t.place (fun r => t.grid.get r col) j ≤ 0 := by
    refine sum_nonpos fun r hr => ?_
    split
    · exact hle r (mem_range.1 hr)
    · exact le_rfl
  unfold direction
  split
  · linarith
  · linarith

/-- In the first phase a column that lowers the sum of the artificial variables has a leaving row:
the sum would fall below zero otherwise. -/
theorem exists_pos_of_phaseOne (h : Admissible a b c t) {col : ℕ} (hcol : col < t.n)
    (hneg : t.grid.get (t.m + 1) col < 0) :
    ¬ ∀ r < t.m, t.grid.get r col ≤ 0 := by
  intro hle
  -- At this length of the step the sum of the artificial variables would be minus one.
  set s := (t.infeasibility + 1) / -t.grid.get (t.m + 1) col with hs
  have hinf : 0 ≤ t.infeasibility := by
    rw [h.represents.infeasibility_eq h.bookkept]
    exact sum_nonneg fun k _ => h.basicPoint_nonneg _
  have hs_nn : 0 ≤ s := div_nonneg (by linarith) (by linarith)
  have hsum := h.represents.rowSum_sub_rhs (h.represents.lhs_ray h.bookkept hcol s) (r := t.m + 1)
    (by omega)
  rw [if_neg (by omega), if_pos rfl,
    h.represents.rowSum_ray h.bookkept hcol s (by omega) (by omega)] at hsum
  have hnn : 0 ≤ ∑ k ∈ range t.m, (t.basicPoint (t.n + k) + s * t.direction col (t.n + k)) :=
    sum_nonneg fun k _ => add_nonneg (h.basicPoint_nonneg _)
      (mul_nonneg hs_nn (direction_nonneg hle _))
  have hval : s * t.grid.get (t.m + 1) col = -(t.infeasibility + 1) := by
    rw [hs, div_neg, neg_mul, div_mul_cancel₀ _ hneg.ne]
  rw [hval] at hsum
  have hinf' : t.infeasibility = -t.rhs (t.m + 1) := rfl
  linarith

theorem infeasibility_ne_zero (hobj : 0 ≤ par.objective.absolute) (hphase : t.phase = .one)
    (hdone : t.isPhaseOneDone par = false) : t.infeasibility ≠ 0 := by
  intro hz
  have hzero : par.objective.isZero t.infeasibility = true := by
    simpa [Tolerance.isZero, hz] using hobj
  simp [isPhaseOneDone, hphase, hzero] at hdone

/-- Without an entering column in the first phase the program has no solution, unless the phase is
done. -/
theorem infeasible_of_phaseOne (h : Admissible a b c t) (hphase : t.phase = .one)
    (hinf : t.infeasibility ≠ 0) (he : t.enteringColumn par = none) (x : ℕ → K) :
    ¬ NonnegSolution a b x := by
  intro hx
  have hthr : t.phase = .two → 0 ≤ par.pivotThreshold := by simp [hphase]
  have hcols : ∀ j < t.n, 0 ≤ t.grid.get (t.m + 1) j := by
    intro j hj
    simpa [objectiveRow, hphase] using h.of_enteringColumn_eq_none hthr he hj
  have hinf_pos : 0 < t.infeasibility := by
    refine lt_of_le_of_ne ?_ (Ne.symm hinf)
    rw [h.represents.infeasibility_eq h.bookkept]
    exact sum_nonneg fun k _ => h.basicPoint_nonneg _
  -- At a solution of the program the sum of the artificial variables is zero, but the row says
  -- that it is at least the sum at the basic solution.
  have hsum := h.represents.sum_sub_rhs (fun i hi => hx.solves i (h.represents.m_eq ▸ hi))
    (r := t.m + 1) (by omega)
  rw [if_neg (by omega)] at hsum
  have hrow : 0 ≤ ∑ j ∈ range t.n, t.grid.get (t.m + 1) j * x j :=
    sum_nonneg fun j hj => mul_nonneg (hcols j (mem_range.1 hj))
      (hx.nonneg j (h.represents.n_eq ▸ mem_range.1 hj))
  have hinf' : t.infeasibility = -t.rhs (t.m + 1) := rfl
  linarith

/-- Without a leaving row in the second phase the cost is unbounded below. -/
theorem unbounded_of_phaseTwo (h : Admissible a b c t) (hphase : t.phase = .two) {col : ℕ}
    (hcol : col < t.n) (hneg : t.grid.get t.m col < 0)
    (hle : ∀ r < t.m, t.grid.get r col ≤ 0 ∧ (t.isResidual r = true → t.grid.get r col = 0))
    (bound : K) : ∃ x, NonnegSolution a b x ∧ ∑ j ∈ range a.cols, c.get j 0 * x j < bound := by
  set s := max 0 ((t.cost - bound + 1) / -t.grid.get t.m col) with hs
  have hs_nn : 0 ≤ s := le_max_left _ _
  have hdir := direction_nonneg fun r hr => (hle r hr).1
  have hbase := h.nonnegSolution_basicPoint hphase
  refine ⟨fun j => t.basicPoint j + s * t.direction col j, ⟨fun j _ => ?_, fun i hi => ?_⟩, ?_⟩
  · exact add_nonneg (h.basicPoint_nonneg j) (mul_nonneg hs_nn (hdir j))
  · have hi' : i < t.m := by rw [h.represents.m_eq]; exact hi
    have hart : t.direction col (t.n + i) = 0 := by
      rw [direction, if_neg (by omega), h.represents.place_artificial h.bookkept _ hi', zero_sub,
        neg_eq_zero]
      split
      · next ha => exact (hle i hi').2 (by simp [isResidual, hphase, ha])
      · rfl
    have hsolve := h.represents.lhs_ray h.bookkept hcol s i hi'
    have hzero := h.represents.lhs_basicPoint h.bookkept i hi'
    rw [hbase.solves i hi, add_eq_left] at hzero
    rwa [hart, hzero, mul_zero, add_zero, add_zero] at hsolve
  · have hsum := h.represents.rowSum_sub_rhs (h.represents.lhs_ray h.bookkept hcol s) (r := t.m)
      (by omega)
    rw [if_pos rfl, h.represents.rowSum_ray h.bookkept hcol s le_rfl (by omega)] at hsum
    rw [← h.represents.n_eq, ← hsum]
    have hcost : t.cost = -t.rhs t.m := rfl
    have hstep : s * t.grid.get t.m col ≤ -(t.cost - bound + 1) := by
      have hge : (t.cost - bound + 1) / -t.grid.get t.m col ≤ s := le_max_right _ _
      rw [div_le_iff₀ (by linarith)] at hge
      linarith
    linarith

end Admissible

/-- What the status at the end of a run says about the program and the basis. -/
def Verdict (a b c : Mat K) (par : Params K) (t : Tableau K) : Prop :=
  match t.status with
  | .optimal => t.phase = .two ∧ ∀ j < t.n, -par.pivotThreshold ≤ t.grid.get t.m j
  | .infeasible => ∀ x, ¬ NonnegSolution a b x
  | .unbounded => t.phase = .two ∧ ∀ bound : K, ∃ x, NonnegSolution a b x ∧
      ∑ j ∈ range a.cols, c.get j 0 * x j < bound
  | .feasible | .approximate => t.phase = .two
  | .failed => True
  | .unexplored | .valid => False

theorem verdict_of_underway {t : Tableau K} (h : t.Underway) (hphase : t.phase = .two) :
    Verdict a b c par t := by
  unfold Verdict
  rcases h.status_of_phaseTwo hphase with h | h
  · rw [h]; exact hphase
  · rw [h]; exact hphase

variable [IsStrictOrderedRing K]

theorem Admissible.verdict_of_nextPivot_eq_error (h : Admissible a b c t) (hpar : par.ExactPivots)
    (hε : (Scalar.epsilon : K) = 0) (hmax : 0 < (Scalar.maxValue : K))
    (hbelow : t.RatiosBelowMax par) (hdone : t.isPhaseOneDone par = false) {status : Status}
    (hnext : t.nextPivot par = .error status) : Verdict a b c par { t with status } := by
  have hthr : t.phase = .two → 0 ≤ par.pivotThreshold := fun _ => hpar.threshold
  rcases nextPivot_eq_error_iff.1 hnext with ⟨he, rfl⟩ | ⟨col, he, hl, rfl⟩
  · cases hphase : t.phase with
    | one =>
      simp only [Verdict, statusWithoutColumn, hphase]
      have hinf := infeasibility_ne_zero hpar.objective.absolute.ge hphase hdone
      exact h.infeasible_of_phaseOne hphase hinf he
    | two =>
      simp only [Verdict, statusWithoutColumn, hphase]
      refine ⟨trivial, fun j hj => ?_⟩
      simpa [objectiveRow, hphase] using h.of_enteringColumn_eq_none hthr he hj
  · have hcol := h.bookkept.enteringColumn_lt he
    have hneg := get_objectiveRow_neg hthr he
    have hrows : ∀ r < t.m, t.grid.get r col ≤ 0 ∧
        (t.isResidual r = true → t.grid.get r col = 0) := fun r hr =>
      h.of_leavingRow_eq_none hpar.toExactRatios hε hmax (hbelow col he) hl hr
    cases hphase : t.phase with
    | one =>
      rw [objectiveRow, hphase] at hneg
      exact absurd (fun r hr => (hrows r hr).1) (h.exists_pos_of_phaseOne hcol hneg)
    | two =>
      rw [objectiveRow, hphase] at hneg
      simp only [Verdict, statusWithoutRow, hphase]
      exact ⟨trivial, h.unbounded_of_phaseTwo hphase hcol hneg hrows⟩

theorem Admissible.advance (h : Admissible a b c t) (hpar : par.ExactRatios)
    (hε : (Scalar.epsilon : K) = 0) {row col : ℕ} (hnext : t.nextPivot par = .ok (row, col)) :
    Admissible a b c (t.advance row col).1 := by
  have hchoice := nextPivot_eq_ok_iff.1 hnext
  have hpivot := h.pivot hpar hε hchoice.1 hchoice.2
  unfold Tableau.advance
  cases t.phase with
  | one => exact hpivot.progress _ _
  | two => exact hpivot.progress _ _

/-- The tableau `t₁` with which a run ends, before its last status is set. -/
structure Final (a b c : Mat K) (par : Params K) (t₁ : Tableau K) : Prop where
  admissible : Admissible a b c t₁
  underway : t₁.Underway
  phaseOne : t₁.isPhaseOneDone par = false

theorem run_cases (hpar : par.ExactRatios) (hε : (Scalar.epsilon : K) = 0) (fuel : ℕ)
    (h : Admissible a b c t) (hway : t.Underway) :
    ∃ t₁ ∈ tested par fuel t, Final a b c par t₁ ∧ EndsAt par fuel t t₁ := by
  obtain ⟨t₁, hmem, ⟨h₁, hway₁⟩, hdone, hend⟩ :=
    run_induction par (fun t => Admissible a b c t ∧ t.Underway) fuel ⟨h, hway⟩
      (fun t' _ h' => ⟨h'.1.enterPhaseTwo hpar, underway_enterPhaseTwo h'.2⟩)
      (fun t' _ row col h' hnext => ⟨h'.1.advance hpar hε hnext, underway_advance h'.2 row col⟩)
  exact ⟨t₁, hmem, ⟨h₁, hway₁, hdone⟩, hend⟩

/-- A run keeps its tableau admissible and ends with a true verdict. -/
theorem run_sound (hpar : par.ExactPivots) (hε : (Scalar.epsilon : K) = 0)
    (hmax : 0 < (Scalar.maxValue : K)) {fuel : ℕ} (h : Admissible a b c t) (hway : t.Underway)
    (hbelow : ∀ t' ∈ tested par fuel t, t'.RatiosBelowMax par) :
    Admissible a b c (t.run par fuel).1 ∧ Verdict a b c par (t.run par fuel).1 := by
  obtain ⟨t₁, hmem, ⟨h₁, hway₁, hdone⟩, hend⟩ := run_cases hpar.toExactRatios hε fuel h hway
  cases hend with
  | stuck status next run =>
    rw [run]
    exact ⟨h₁.progress _ _,
      h₁.verdict_of_nextPivot_eq_error hpar hε hmax (hbelow t₁ hmem) hdone next⟩
  | failed phase count run =>
    rw [run]
    exact ⟨h₁.progress _ _, trivial⟩
  | limit phase run =>
    rw [run]
    exact ⟨h₁, verdict_of_underway hway₁ phase⟩

/-- A run that finds a point, even one that could be improved without end, has left the first
phase. -/
theorem run_phaseTwo (hpar : par.ExactRatios) (hε : (Scalar.epsilon : K) = 0) {fuel : ℕ}
    (h : Admissible a b c t) (hway : t.Underway)
    (hstatus : ((t.run par fuel).1.status.isFeasible ||
      (t.run par fuel).1.status = .unbounded) = true) :
    Admissible a b c (t.run par fuel).1 ∧ (t.run par fuel).1.phase = .two := by
  obtain ⟨t₁, -, ⟨h₁, -, -⟩, hend⟩ := run_cases hpar hε fuel h hway
  cases hend with
  | stuck status next run =>
    rw [run] at hstatus ⊢
    refine ⟨h₁.progress _ _, ?_⟩
    show t₁.phase = .two
    cases hphase : t₁.phase with
    | two => rfl
    | one =>
      rw [status_of_phaseOne hphase next] at hstatus
      cases hstatus
  | failed phase count run =>
    rw [run] at hstatus
    cases hstatus
  | limit phase run =>
    rw [run]
    exact ⟨h₁, phase⟩

omit [IsStrictOrderedRing K] in
theorem admissible_ofStandardForm (hb : ∀ r < a.rows, 0 ≤ b.get r 0) :
    Admissible a b c (ofStandardForm a b c) := by
  refine ⟨represents_ofStandardForm a b c, bookkept_ofStandardForm a b c, ?_, ?_⟩
  · intro r hr
    rw [rhs_ofStandardForm hr]
    exact hb r hr
  · intro r _ hres
    simp [isResidual, ofStandardForm] at hres

theorem solve_sound (hpar : par.ExactPivots) (hε : (Scalar.epsilon : K) = 0)
    (hmax : 0 < (Scalar.maxValue : K)) (hb : ∀ r < a.rows, 0 ≤ b.get r 0)
    (hbelow : ∀ t ∈ tested par par.maxIter (ofStandardForm a b c), t.RatiosBelowMax par) :
    Admissible a b c ((ofStandardForm a b c).solve par).1 ∧
      Verdict a b c par ((ofStandardForm a b c).solve par).1 := by
  rw [solve_eq_run par rfl]
  exact run_sound hpar hε hmax (admissible_ofStandardForm hb) rfl hbelow

theorem solve_phaseTwo (hpar : par.ExactRatios) (hε : (Scalar.epsilon : K) = 0)
    (hb : ∀ r < a.rows, 0 ≤ b.get r 0)
    (hstatus : (((ofStandardForm a b c).solve par).1.status.isFeasible ||
      ((ofStandardForm a b c).solve par).1.status = .unbounded) = true) :
    Admissible a b c ((ofStandardForm a b c).solve par).1 ∧
      ((ofStandardForm a b c).solve par).1.phase = .two := by
  rw [solve_eq_run par rfl] at hstatus ⊢
  exact run_phaseTwo hpar hε (admissible_ofStandardForm hb) rfl hstatus

end Tableau

end QuadProg
