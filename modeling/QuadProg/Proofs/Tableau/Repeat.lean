import QuadProg.Proofs.Tableau.Course

/-!
# Running again

A tableau on which a run has ended is at rest: a second run with the same parameters tests it once,
leaves by the same exit and changes nothing. Nothing is compared but what the first run compared on
the same entries, so this needs no order on the scalars and holds of numbers that are no numbers
too.
-/

namespace QuadProg

namespace Tableau

variable {α : Type} [Scalar α] {par : Params α} {t : Tableau α}

/-- The ways in which a run leaves a tableau. -/
inductive Halted (par : Params α) (t : Tableau α) : Prop
  /-- There is no next pivot, and the status says so. -/
  | stuck (waits : t.isPhaseOneDone par = false) (next : t.nextPivot par = .error t.status)
  /-- The limit of pivots is reached in the first phase. -/
  | failed (waits : t.isPhaseOneDone par = false) (choice : ℕ × ℕ)
      (next : t.nextPivot par = .ok choice) (limit : par.maxIter ≤ t.iterations)
      (phase : t.phase = .one) (status : t.status = .failed)
  /-- The limit of pivots is reached in the second phase. -/
  | limit (choice : ℕ × ℕ) (next : t.nextPivot par = .ok choice)
      (limit : par.maxIter ≤ t.iterations) (phase : t.phase = .two)

/-! ## A run comes to rest -/

/-- A run that may use up the limit leaves a tableau at rest. -/
theorem halted_run (par : Params α) (fuel : ℕ) (t : Tableau α)
    (hfuel : par.maxIter ≤ t.iterations + fuel) : Halted par (t.run par fuel).1 := by
  induction fuel generalizing t with
  | zero =>
    have hwaits := isPhaseOneDone_enterPhaseTwo par t
    cases hnext : (t.enterPhaseTwo par).1.nextPivot par with
    | error status =>
      rw [run_of_error hnext]
      exact .stuck hwaits hnext
    | ok choice =>
      have hlimit : par.maxIter ≤ (t.enterPhaseTwo par).1.iterations := by
        rw [iterations_enterPhaseTwo]
        exact hfuel
      rw [run_zero_of_ok hnext]
      cases hphase : (t.enterPhaseTwo par).1.phase with
      | one => exact .failed hwaits choice hnext hlimit hphase rfl
      | two => exact .limit choice hnext hlimit hphase
  | succ fuel ih =>
    cases hnext : (t.enterPhaseTwo par).1.nextPivot par with
    | error status =>
      rw [run_of_error hnext]
      exact .stuck (isPhaseOneDone_enterPhaseTwo par t) hnext
    | ok choice =>
      obtain ⟨row, col⟩ := choice
      rw [run_succ_of_ok fuel hnext]
      apply ih
      rw [iterations_advance, iterations_enterPhaseTwo]
      omega

theorem halted_solve (par : Params α) (t : Tableau α) : Halted par (t.solve par).1 :=
  halted_run par (par.maxIter - t.iterations) t (by omega)

/-! ## A tableau at rest stays as it is -/

/-- At rest the first phase is not done, or has been left. -/
theorem Halted.isPhaseOneDone (h : Halted par t) : t.isPhaseOneDone par = false := by
  cases h with
  | stuck waits _ => exact waits
  | failed waits _ _ _ _ _ => exact waits
  | limit _ _ _ phase => simp [Tableau.isPhaseOneDone, phase]

theorem Halted.enterPhaseTwo (h : Halted par t) : (t.enterPhaseTwo par).1 = t := by
  simp [enterPhaseTwo_eq, h.isPhaseOneDone]

theorem Halted.heading (h : Halted par t) : t.heading par = [.iteration t.iterations t.status] := by
  simp [Tableau.heading, events_enterPhaseTwo, h.enterPhaseTwo]

/-- A run from a tableau at rest takes the exit by which the tableau was left. -/
theorem Halted.solve (h : Halted par t) :
    (t.solve par).1 = t ∧ (t.solve par).2.events = [.iteration t.iterations t.status] := by
  have hstay := h.enterPhaseTwo
  have hheading := h.heading
  have hrun : (t.solve par).1 = (t.run par (par.maxIter - t.iterations)).1 := rfl
  rw [hrun, events_solve]
  cases h with
  | stuck waits next =>
    have hnext : (t.enterPhaseTwo par).1.nextPivot par = .error t.status := by rw [hstay, next]
    rw [run_of_error hnext, events_run_of_error _ hnext, hstay, hheading]
    simp
  | failed waits choice next limit phase status =>
    have hnext : (t.enterPhaseTwo par).1.nextPivot par = .ok choice := by rw [hstay, next]
    rw [Nat.sub_eq_zero_of_le limit, run_zero_of_ok hnext, events_run_zero_of_ok hnext, hstay,
      phase, hheading]
    refine ⟨?_, by simp [status]⟩
    rw [← status]
  | limit choice next limit phase =>
    have hnext : (t.enterPhaseTwo par).1.nextPivot par = .ok choice := by rw [hstay, next]
    rw [Nat.sub_eq_zero_of_le limit, run_zero_of_ok hnext, events_run_zero_of_ok hnext, hstay,
      phase, hheading]
    exact ⟨rfl, List.append_nil _⟩

/-- Solving again changes nothing, returns the same solution and tells one event. No assumption is
made of the tableau, so the pivots of a caller may have led to it. -/
theorem solve_again (par : Params α) (t : Tableau α) :
    let u := (t.solve par).1
    (u.solve par).1 = u ∧ (u.solve par).1.solution = u.solution ∧
      (u.solve par).2.events = [.iteration u.iterations u.status] := by
  intro u
  obtain ⟨hrest, hevents⟩ := (halted_solve par t).solve
  exact ⟨hrest, congrArg Tableau.solution hrest, hevents⟩

end Tableau

end QuadProg
