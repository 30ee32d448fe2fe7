import QuadProg.Proofs.Tableau.Pivots
import QuadProg.Proofs.Verdicts

/-!
# Artificial variables in the second phase

An artificial variable that is still basic when the second phase begins is to stay at zero until it
leaves the basis, since only then is the basic solution one of the program. The ratio test sees to
this by giving its row a tiny ratio, so that it leaves as soon as the entering column would move it.

The rule fails in two cases. If the entry of the row is negligible next to its right-hand side of
zero, the row is left out of the test; and if the row that is chosen has a ratio that is smaller
still, the artificial row is not chosen. Either way the artificial variable moves when the chosen
ratio is not zero (`Disturbs`). No other pivot takes an artificial variable away from zero.
-/

namespace QuadProg

open Finset

namespace Tableau

section Defects

variable {α : Type} [Scalar α] (par : Params α) (t : Tableau α)

/-- The pivot changes the value of an artificial variable that stays basic: the entry of its row is
taken for zero, or the step is no longer than the tiny ratio that its row has in the test. -/
def Disturbs (row col : ℕ) : Prop :=
  t.isResidual row = false ∧ t.rhs row ≠ 0 ∧
    ∃ r < t.m, t.isResidual r = true ∧ t.grid.get r col ≠ 0 ∧
      (par.problem.isZero (t.grid.get r col) = true ∨
        Scalar.abs (t.rhs row) / t.grid.get row col ≤ Scalar.epsilon)

/-- The first tableau of the second phase has all its artificial variables at zero, if the run comes
to that phase. -/
def SwitchesClean (fuel : ℕ) : Prop :=
  ∀ t₀ ∈ (tested par fuel t).find? (fun t' => t'.phase = .two), ¬ LeavesResidue t₀

instance [DecidableEq α] : Decidable (LeavesResidue t) :=
  inferInstanceAs (Decidable (∃ r < t.m, t.isResidual r = true ∧ t.rhs r ≠ 0))

instance [DecidableEq α] (row col : ℕ) : Decidable (Disturbs par t row col) :=
  inferInstanceAs (Decidable (_ ∧ _ ∧ ∃ r < t.m, _))

instance [DecidableEq α] (fuel : ℕ) : Decidable (SwitchesClean par t fuel) :=
  inferInstanceAs (Decidable (∀ t₀ ∈ List.find? _ _, _))

end Defects

section Course

variable {α : Type} [Scalar α] {par : Params α} {t : Tableau α}

omit [Scalar α] in
theorem isResidual_of_phaseTwo (hphase : t.phase = .two) (r : ℕ) :
    t.isResidual r = t.isArtificial r := by
  simp [isResidual, hphase]

theorem enterPhaseTwo_idem (par : Params α) (t : Tableau α) :
    ((t.enterPhaseTwo par).1.enterPhaseTwo par).1 = (t.enterPhaseTwo par).1 := by
  rw [enterPhaseTwo_eq par (t.enterPhaseTwo par).1, isPhaseOneDone_enterPhaseTwo]
  rfl

theorem tested_enterPhaseTwo (par : Params α) (fuel : ℕ) (t : Tableau α) :
    tested par fuel (t.enterPhaseTwo par).1 = tested par fuel t := by
  cases fuel with
  | zero => rw [tested, tested, enterPhaseTwo_idem]
  | succ fuel => rw [tested, tested, enterPhaseTwo_idem]

theorem find?_tested_of_phaseTwo (hphase : t.phase = .two) (fuel : ℕ) :
    (tested par fuel t).find? (fun t' => t'.phase = .two) = some t := by
  cases fuel with
  | zero => simp [tested, enterPhaseTwo_of_phaseTwo hphase, hphase]
  | succ fuel => simp [tested, enterPhaseTwo_of_phaseTwo hphase, hphase]

theorem mem_tested_of_phaseTwo (hphase : t.phase = .two) (fuel : ℕ) : t ∈ tested par fuel t :=
  List.mem_of_find?_eq_some (find?_tested_of_phaseTwo hphase fuel)

end Course

variable {K : Type} [Field K] [LinearOrder K] [Exact K]
variable {a b c : Mat K} {t : Tableau K} {par : Params K}

/-- The artificial variables are zero, and the point solves the equations of the program. -/
structure Settled (a b : Mat K) (t : Tableau K) : Prop where
  artificial : ∀ r < t.m, t.isArtificial r = true → t.rhs r = 0
  infeasibility : t.infeasibility = 0
  solves : ∀ i < a.rows, a.lhs i t.point.entry = b.get i 0

/-- Without a residue the second phase works on solutions of the program. -/
theorem Represents.settled (h : Represents a b c t) (hb : t.Bookkept) (hphase : t.phase = .two)
    (hclean : ¬ LeavesResidue t) : Settled a b t := by
  have hzero : ∀ r < t.m, t.isArtificial r = true → t.rhs r = 0 := fun r hr ha =>
    rhs_eq_zero_of_not_leavesResidue hclean hr ((isResidual_of_phaseTwo hphase r).trans ha)
  have hvalue : ∀ r < a.rows, t.artificialValue r = 0 := by
    intro r hr
    unfold artificialValue
    split
    · next ha => exact hzero r (h.m_eq ▸ hr) ha
    · rfl
  have hreads := h.depicts hb
  refine ⟨hzero, ?_, fun i hi => ?_⟩
  · rw [hreads.infeasibility]
    exact sum_eq_zero fun r hr => hvalue r (mem_range.1 hr)
  · have hpoint := hreads.point i hi
    rwa [hvalue i hi, add_zero] at hpoint

theorem Settled.withStatus (h : Settled a b t) (status : Status) :
    Settled a b { t with status } :=
  ⟨h.artificial, h.infeasibility, h.solves⟩

section Steps

variable [IsStrictOrderedRing K]

/-- The row of an artificial variable at zero takes part in the ratio test with the tiny ratio,
unless its entry is taken for zero. -/
theorem ratio_le_epsilon (hpar : par.problem.IsProper) (hε : 0 ≤ (Scalar.epsilon : K))
    {row col r : ℕ} (hl : t.leavingRow par col = some row) (hr : r < t.m)
    (hres : t.isResidual r = true) (hrhs : t.rhs r = 0)
    (hseen : par.problem.isZero (t.grid.get r col) = false) :
    t.ratio par col row ≤ Scalar.epsilon := by
  have hsmall : par.problem.isSmall 0 (t.grid.get r col) = false := by
    rw [Tolerance.isSmall, hpar.isZero_zero, if_pos rfl, hseen]
  have hratio : t.ratio par col r = Scalar.epsilon := by
    simp only [ratio, hrhs, Scalar.abs_eq_abs, abs_zero, hsmall, hres, hpar.isSmall_zero, if_true,
      Bool.false_eq_true, if_false]
  rw [← hratio]
  exact Selection.value_le_of_choice_eq_some hl (List.mem_range.2 hr)
    (by simp [admitsRow, hres, hratio, hε])

/-- In the second phase exactly the disturbing pivots leave a residue where there was none. -/
theorem Represents.leavesResidue_advance_iff (h : Represents a b c t) (hb : t.Bookkept)
    (hpar : par.problem.IsProper) (hε : 0 ≤ (Scalar.epsilon : K)) (hphase : t.phase = .two)
    (hclean : ¬ LeavesResidue t) {row col : ℕ} (hnext : t.nextPivot par = .ok (row, col)) :
    LeavesResidue (t.advance row col).1 ↔ Disturbs par t row col := by
  obtain ⟨-, hl⟩ := nextPivot_eq_ok_iff.1 hnext
  obtain ⟨hrow, -, hsmall⟩ := admitted_of_leavingRow hl
  have hne := hpar.ne_zero hsmall
  have hzero : ∀ r < t.m, t.isResidual r = true → t.rhs r = 0 :=
    fun r hr => rhs_eq_zero_of_not_leavesResidue hclean hr
  have hpivot : LeavesResidue (t.advance row col).1 ↔ LeavesResidue (t.pivot row col) := by
    unfold Tableau.advance
    rw [hphase]
    rfl
  -- What a row with an artificial variable at zero has on its right-hand side afterwards.
  have hmoved : ∀ r < t.m, t.isResidual r = true → r ≠ row →
      (t.pivot row col).rhs r = -(t.grid.get r col * (t.rhs row / t.grid.get row col)) := by
    intro r hr hres hrr
    rw [rhs_pivot h.shape_eq (by omega) hne, if_neg hrr, hzero r hr hres, zero_sub]
  rw [hpivot]
  constructor
  · rintro ⟨r, hr, hres, hrhs⟩
    rw [isResidual_pivot hb hrow, Bool.and_eq_true, decide_eq_true_eq] at hres
    obtain ⟨hres, hrr⟩ := hres
    rw [hmoved r hr hres hrr, neg_ne_zero, mul_ne_zero_iff, div_ne_zero_iff] at hrhs
    obtain ⟨hentry, hrow', -⟩ := hrhs
    have hrowres : t.isResidual row = false :=
      Bool.eq_false_of_not_eq_true fun hrowres => hrow' (hzero row hrow hrowres)
    refine ⟨hrowres, hrow', r, hr, hres, hentry, ?_⟩
    cases hseen : par.problem.isZero (t.grid.get r col) with
    | true => exact Or.inl rfl
    | false =>
      have hle := ratio_le_epsilon hpar hε hl hr hres (hzero r hr hres) hseen
      rw [← Tolerance.isSmall_abs] at hsmall
      simp only [ratio, Scalar.abs_eq_abs, hsmall, hrowres, Bool.false_eq_true, if_false] at hle
      exact Or.inr hle
  · rintro ⟨hrowres, hrow', r, hr, hres, hentry, -⟩
    have hrr : r ≠ row := by
      rintro rfl
      rw [hres] at hrowres
      cases hrowres
    refine ⟨r, hr, ?_, ?_⟩
    · rw [isResidual_pivot hb hrow, hres, decide_eq_true hrr]
      rfl
    · rw [hmoved r hr hres hrr]
      exact neg_ne_zero.2 (mul_ne_zero hentry (div_ne_zero hrow' hne))

/-- Without tolerances and without a tiny ratio no pivot disturbs an artificial variable. -/
theorem not_disturbs_of_exact (hpar : par.ExactRatios) (hε : (Scalar.epsilon : K) = 0)
    {row col : ℕ} (hnext : t.nextPivot par = .ok (row, col)) : ¬ Disturbs par t row col := by
  rintro ⟨hres, hrhs, r, -, -, hentry, hzero | hle⟩
  · exact hentry ((Tolerance.isZero_iff hpar.problem _).1 hzero)
  · obtain ⟨-, hadmit, -⟩ := admitted_of_leavingRow (nextPivot_eq_ok_iff.1 hnext).2
    have hpos : 0 < t.grid.get row col := by
      simpa [admitsRow, hres] using (Bool.and_eq_true_iff.1 hadmit).1
    rw [hε] at hle
    exact hle.not_gt (div_pos (abs_pos.2 hrhs) hpos)

/-! ## Runs -/

/-- There is a first pivot that leaves a residue, and it is a disturbing one. -/
def DisturbedIn (a b : Mat K) (par : Params K) (l : List (Tableau K)) : Prop :=
  ∃ t ∈ l, t.phase = .two ∧ Settled a b t ∧
    ∃ row col, t.nextPivot par = .ok (row, col) ∧ Disturbs par t row col ∧
      (t.advance row col).1 ∈ l ∧ LeavesResidue (t.advance row col).1

omit [IsStrictOrderedRing K] in
theorem DisturbedIn.cons {l : List (Tableau K)} (h : DisturbedIn a b par l) (t : Tableau K) :
    DisturbedIn a b par (t :: l) := by
  obtain ⟨t', hmem, hphase, hsettled, row, col, hnext, hdisturbs, hmade, hleaves⟩ := h
  exact ⟨t', List.mem_cons_of_mem _ hmem, hphase, hsettled, row, col, hnext, hdisturbs,
    List.mem_cons_of_mem _ hmade, hleaves⟩

/-- A run in the second phase stays settled until a pivot disturbs an artificial variable. -/
theorem Represents.settled_of_tested (hpar : par.problem.IsProper) (hε : 0 ≤ (Scalar.epsilon : K))
    (fuel : ℕ) {t : Tableau K} (h : Represents a b c t) (hb : t.Bookkept) (hphase : t.phase = .two)
    (hclean : ¬ LeavesResidue t) :
    (∀ t' ∈ tested par fuel t, Settled a b t') ∨ DisturbedIn a b par (tested par fuel t) := by
  have hsettled := h.settled hb hphase hclean
  induction fuel generalizing t with
  | zero =>
    refine Or.inl fun t' hmem => ?_
    rw [tested, enterPhaseTwo_of_phaseTwo hphase, List.mem_singleton] at hmem
    exact hmem ▸ hsettled
  | succ fuel ih =>
    rw [tested, enterPhaseTwo_of_phaseTwo hphase]
    cases hnext : t.nextPivot par with
    | error status =>
      refine Or.inl fun t' hmem => ?_
      exact List.mem_singleton.1 hmem ▸ hsettled
    | ok choice =>
      obtain ⟨row, col⟩ := choice
      obtain ⟨hrep, hkept⟩ := h.advance hb hpar hnext
      have hphase' : (t.advance row col).1.phase = .two := (phase_advance t row col).trans hphase
      have hiff := h.leavesResidue_advance_iff hb hpar hε hphase hclean hnext
      by_cases hdisturbs : Disturbs par t row col
      · refine Or.inr ⟨t, List.mem_cons_self, hphase, hsettled, row, col, hnext, hdisturbs,
          List.mem_cons_of_mem _ ?_, hiff.2 hdisturbs⟩
        exact mem_tested_of_phaseTwo hphase' fuel
      · have hclean' := hiff.not.2 hdisturbs
        rcases ih hrep hkept hphase' hclean' (hrep.settled hkept hphase' hclean') with hall | hbad
        · refine Or.inl fun t' hmem => ?_
          rcases List.mem_cons.1 hmem with rfl | hmem
          · exact hsettled
          · exact hall t' hmem
        · exact Or.inr (hbad.cons t)

/-- A run that enters the second phase with its artificial variables at zero stays settled from
there on, until a pivot disturbs one of them. -/
theorem Represents.settled_of_switch (hpar : par.problem.IsProper) (hε : 0 ≤ (Scalar.epsilon : K))
    (fuel : ℕ) {t : Tableau K} (h : Represents a b c t) (hb : t.Bookkept)
    (hswitch : SwitchesClean par t fuel) :
    (∀ t' ∈ tested par fuel t, t'.phase = .two → Settled a b t') ∨
      DisturbedIn a b par (tested par fuel t) := by
  induction fuel generalizing t with
  | zero =>
    obtain ⟨h₁, hb₁⟩ := h.enterPhaseTwo par hb
    refine Or.inl fun t' hmem hphase => ?_
    obtain rfl := List.mem_singleton.1 hmem
    rw [SwitchesClean, ← tested_enterPhaseTwo, find?_tested_of_phaseTwo hphase] at hswitch
    exact h₁.settled hb₁ hphase (hswitch _ rfl)
  | succ fuel ih =>
    obtain ⟨h₁, hb₁⟩ := h.enterPhaseTwo par hb
    cases hphase : (t.enterPhaseTwo par).1.phase with
    | two =>
      rw [SwitchesClean, ← tested_enterPhaseTwo, find?_tested_of_phaseTwo hphase] at hswitch
      rw [← tested_enterPhaseTwo]
      exact (h₁.settled_of_tested hpar hε _ hb₁ hphase (hswitch _ rfl)).imp_left
        fun hall t' hmem _ => hall t' hmem
    | one =>
      rw [SwitchesClean, tested] at hswitch
      rw [tested]
      cases hnext : (t.enterPhaseTwo par).1.nextPivot par with
      | error status =>
        refine Or.inl fun t' hmem hphase' => ?_
        rw [List.mem_singleton.1 hmem, hphase] at hphase'
        cases hphase'
      | ok choice =>
        obtain ⟨row, col⟩ := choice
        obtain ⟨h₂, hb₂⟩ := h₁.advance hb₁ hpar hnext
        have hswitch' : SwitchesClean par ((t.enterPhaseTwo par).1.advance row col).1 fuel := by
          rw [hnext, List.find?_cons_of_neg (by simp [hphase])] at hswitch
          exact hswitch
        rcases ih h₂ hb₂ hswitch' with hall | hbad
        · refine Or.inl fun t' hmem hphase' => ?_
          rcases List.mem_cons.1 hmem with rfl | hmem
          · cases hphase.symm.trans hphase'
          · exact hall t' hmem hphase'
        · exact Or.inr (hbad.cons _)

/-- If the artificial variables are zero when the second phase begins, they are zero in every
tableau of that phase, the last one included, whose points therefore solve the program; otherwise
there is a first pivot that moves one of them, and it is a disturbing one. -/
theorem settled_or_disturbed (hpar : par.problem.IsProper) (hε : 0 ≤ (Scalar.epsilon : K))
    (a b c : Mat K) (hswitch : SwitchesClean par (ofStandardForm a b c) par.maxIter) :
    (∀ t ∈ ((ofStandardForm a b c).solve par).1 :: tested par par.maxIter (ofStandardForm a b c),
      t.phase = .two → Settled a b t) ∨
    DisturbedIn a b par (tested par par.maxIter (ofStandardForm a b c)) := by
  rcases (represents_ofStandardForm a b c).settled_of_switch hpar hε par.maxIter
    (bookkept_ofStandardForm a b c) hswitch with hall | hbad
  · refine Or.inl fun t hmem hphase => ?_
    rcases List.mem_cons.1 hmem with rfl | hmem
    · rw [solve_eq_run par rfl] at hphase ⊢
      obtain ⟨t₁, hmem₁, -, -, hend⟩ := run_induction par (fun _ => True) par.maxIter
        (t := ofStandardForm a b c) trivial (fun _ _ _ => trivial) (fun _ _ _ _ _ _ => trivial)
      cases hend with
      | stuck status next run =>
        rw [run] at hphase ⊢
        exact (hall t₁ hmem₁ hphase).withStatus status
      | failed phase count run =>
        rw [run] at hphase
        cases phase.symm.trans hphase
      | limit phase run =>
        rw [run]
        exact hall t₁ hmem₁ phase
    · exact hall t hmem hphase
  · exact Or.inr hbad

end Steps

/-- Minimise `-x₀` subject to `x₁ = x₀` and `x₀ + 4 x₂ = 4`: the artificial variable of the first
row is basic at zero when the second phase begins, and leaves with the next pivot. Then minimise
`-2 x₀ - x₁` subject to `x₀ / 10 ^ 15 + x₁ = 0` and bounds of `10 ^ 6`, of which the origin is the
only solution: under the standard parameters the run ends at both bounds. -/
theorem settled_or_disturbed_sample :
    letI := Exact.double
    (let a : Mat ℚ := ⟨.general 2 3, #[-1, 1, 1, 0, 0, 4], rfl⟩
      let b : Mat ℚ := ⟨.general 2 1, #[0, 4], rfl⟩
      let c : Mat ℚ := ⟨.general 3 1, #[-1, 0, 0], rfl⟩
      let final := ((ofStandardForm a b c).solve .standard).1
      final.status = .optimal ∧ final.point = #[4, 4, 0] ∧ final.Settled a b) ∧
    (let a : Mat ℚ :=
        ⟨.general 3 4, #[-1 / 10 ^ 15, 1, 0, -1, 0, 1, 0, 1, 0, 0, 0, 1], rfl⟩
      let b : Mat ℚ := ⟨.general 3 1, #[0, 10 ^ 6, 10 ^ 6], rfl⟩
      let c : Mat ℚ := ⟨.general 4 1, #[-2, -1, 0, 0], rfl⟩
      let final := ((ofStandardForm a b c).solve .standard).1
      final.status = .optimal ∧ final.point = #[10 ^ 6, 10 ^ 6, 0, 0] ∧
        DisturbedIn a b .standard (tested .standard 10000 (ofStandardForm a b c))) := by
  -- Among the pivots of the first program none is disturbing.
  have hkept : letI := Exact.double
      let a : Mat ℚ := ⟨.general 2 3, #[-1, 1, 1, 0, 0, 4], rfl⟩
      let b : Mat ℚ := ⟨.general 2 1, #[0, 4], rfl⟩
      let c : Mat ℚ := ⟨.general 3 1, #[-1, 0, 0], rfl⟩
      ∀ t ∈ tested .standard 10000 (ofStandardForm a b c),
        ∀ choice ∈ (t.nextPivot .standard).toOption,
          ¬ Disturbs .standard t choice.1 choice.2 := by
    decide +kernel
  let := Exact.double
  have hpar : (Params.standard : Params ℚ).problem.IsProper := Params.standard_properRatios.problem
  have hε : (0 : ℚ) ≤ Scalar.epsilon := by decide +kernel
  constructor
  · intro a b c final
    have hend : final.status = .optimal ∧ final.point = #[4, 4, 0] ∧ final.phase = .two := by
      decide +kernel
    rcases settled_or_disturbed hpar hε a b c (by decide +kernel) with hall | hbad
    · exact ⟨hend.1, hend.2.1, hall final List.mem_cons_self hend.2.2⟩
    · obtain ⟨t, hmem, -, -, row, col, hnext, hdisturbs, -⟩ := hbad
      exact absurd hdisturbs (hkept t hmem (row, col) (by rw [hnext]; rfl))
  · intro a b c final
    have hend : final.status = .optimal ∧ final.point = #[10 ^ 6, 10 ^ 6, 0, 0] ∧
        final.phase = .two ∧ a.lhs 0 final.point.entry ≠ b.get 0 0 := by
      decide +kernel
    refine ⟨hend.1, hend.2.1, ?_⟩
    refine (settled_or_disturbed hpar hε a b c (by decide +kernel)).resolve_left fun hall => ?_
    exact hend.2.2.2 ((hall final List.mem_cons_self hend.2.2.1).solves 0 (by decide))

end Tableau

end QuadProg
