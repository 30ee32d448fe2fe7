import QuadProg.Proofs.ActiveSet.Initialise
import QuadProg.Proofs.LinearProgram

/-!
# What a negative verdict is worth

Between numbers of different magnitude the tolerances take a verdict away from the program. A
program that is given up as infeasible or unbounded is so, unless the run went wrong in a way that
can be named: a row overlooked, a residue left or a stall of the simplex method, or a run of the
active-set method that strayed from the constraints. Each of them happens to programs of one
variable.
-/

namespace QuadProg

open Finset

theorem exists_solution_of_status {α : Type} {x : Checked (Outcome α)} {status : Status}
    (h : x.map (fun out => out.result.map Solution.status) = .ok (.ok status)) :
    ∃ out s, x = .ok out ∧ out.result = .ok s ∧ s.status = status := by
  cases x with
  | error fault => cases h
  | ok out =>
    cases hs : out.result with
    | error d =>
      rw [Except.map, hs] at h
      cases h
    | ok s =>
      rw [Except.map, hs] at h
      exact ⟨out, s, rfl, hs, Except.ok.inj (Except.ok.inj h)⟩

namespace LinearProgram

variable {K : Type} [Field K] [LinearOrder K] [IsStrictOrderedRing K] [Exact K]
variable {par : Params K} {p : LinearProgram K} {out : Outcome K} {s : Solution K}

/-- A program that is solved was accepted, and the status is that of the final tableau. -/
theorem status_of_solve (h : p.solve? par = .ok out) (hs : out.result = .ok s) :
    s.status = (p.start.solve par).1.status := by
  cases hcheck : p.check with
  | error d =>
    rw [solve?, hcheck] at h
    obtain rfl := Except.ok.inj h
    cases hs
  | ok sizes =>
    obtain ⟨trace, hsolve⟩ := solve?_eq par hcheck
    obtain rfl := Except.ok.inj (hsolve.symm.trans h)
    obtain rfl := Except.ok.inj hs
    generalize (p.start.solve par).1 = t
    rfl

/-- The run starts from the tableau of a program in standard form whose solutions are the feasible
points, at the same cost. -/
theorem start_spec (p : LinearProgram K) :
    ∃ a b c, p.start = Tableau.ofStandardForm a b c ∧ (∀ r < a.rows, 0 ≤ b.get r 0) ∧
      (∀ x, p.IsFeasible x → ∃ z, NonnegSolution a b z) ∧
      ∀ z, NonnegSolution a b z →
        p.IsFeasible z ∧ ∑ j ∈ range a.cols, c.get j 0 * z j = p.costAt z := by
  have hiff := fun z => nonnegSolution_signedRows_iff (a := (p.standardFormOf p.me p.mi).a)
    (b := (p.standardFormOf p.me p.mi).b) (m := p.me + p.mi) (n := p.n + p.mi) rfl rfl z
  refine ⟨_, _, _, rfl, fun r hr => get_signedRows_b_nonneg (m := p.me + p.mi) rfl hr, ?_, ?_⟩
  · intro x hx
    exact ⟨_, (hiff _).2 (p.nonnegSolution_withSlacks hx)⟩
  · intro z hz
    exact ⟨p.isFeasible_of_nonnegSolution ((hiff z).1 hz), p.costAt_form z⟩

theorem infeasible_of_solve (hpar : par.ProperRatios) (hε : 0 ≤ (Scalar.epsilon : K))
    (hmax : (Scalar.epsilon : K) < Scalar.maxValue) (hratios : p.RatiosBelowMax par)
    (hstatus : (p.start.solve par).1.status = .infeasible) :
    (¬ ∃ x, p.IsFeasible x) ∨ ∃ t ∈ Tableau.tested par par.maxIter p.start,
      t.phase = .one ∧ (t.Overlooks par ∨ t.Stalls par) := by
  obtain ⟨a, b, c, hstart, hnonneg, hsolution, -⟩ := p.start_spec
  unfold RatiosBelowMax at hratios
  rw [hstart] at hratios hstatus ⊢
  rcases Tableau.solve_infeasible hpar hε hmax hnonneg hratios hstatus with hempty | hbad
  · refine Or.inl ?_
    rintro ⟨x, hx⟩
    obtain ⟨z, hz⟩ := hsolution x hx
    exact hempty z hz
  · exact Or.inr hbad

theorem unbounded_of_solve (hpar : par.ProperRatios) (hthr : 0 ≤ par.pivotThreshold)
    (hε : 0 ≤ (Scalar.epsilon : K)) (hmax : (Scalar.epsilon : K) < Scalar.maxValue)
    (hratios : p.RatiosBelowMax par) (hstatus : (p.start.solve par).1.status = .unbounded) :
    (∀ bound : K, ∃ x, p.IsFeasible x ∧ p.costAt x < bound) ∨
      ∃ t ∈ Tableau.tested par par.maxIter p.start,
        t.Overlooks par ∨ t.LeavesResidue ∨ t.Stalls par := by
  obtain ⟨a, b, c, hstart, hnonneg, -, hsolution⟩ := p.start_spec
  unfold RatiosBelowMax at hratios
  rw [hstart] at hratios hstatus ⊢
  rcases Tableau.solve_unbounded hpar hthr hε hmax hnonneg hratios hstatus with hlow | hbad
  · refine Or.inl fun bound => ?_
    obtain ⟨z, hz, hlt⟩ := hlow bound
    obtain ⟨hfeasible, hcost⟩ := hsolution z hz
    exact ⟨z, hfeasible, hcost ▸ hlt⟩
  · exact Or.inr hbad

end LinearProgram

namespace ActiveSet

section Status

variable {α : Type} [Scalar α]
variable {par : Params α} {p : QuadraticProgram α} {s₀ s : State α}

/-- A run that starts feasible and ends infeasible has tested the point that it had reached and
rejected it. -/
theorem rejected_of_ended (h₀ : s₀.status = .feasible) (h : Ended par p s₀ s)
    (hstatus : s.status = .infeasible) :
    ∃ s', Reached par p s₀ s' ∧ s'.x = s.x ∧ isFeasible? par p s.x = .ok false := by
  cases h with
  | limit reached =>
    have := isFeasible_of_reached h₀ reached
    rw [hstatus] at this
    cases this
  | @failed s moved reached iterated failure =>
    -- Only an iteration without a target looks at the constraints.
    obtain ⟨s', hshrunk, hattempt⟩ := iterate_cases iterated
    have hstatus : moved.state.status = .infeasible := hstatus
    have hx : moved.state.counted.x = moved.state.x := rfl
    rw [hx]
    generalize moved.state = s'' at *
    cases hattempt with
    | stepped outcome target stage solved found step =>
      obtain ⟨-, -, ⟨-, hstate⟩ | ⟨-, stride, -, hstate⟩⟩ := takeStep_cases step
      · rw [hstate] at hstatus
        cases hstatus
      · rw [hstate] at hstatus
        cases hstatus
    | stuck outcome feasible solved unsolvable empty test =>
      cases feasible with
      | false => exact ⟨s, reached, hshrunk.x.symm, test⟩
      | true => cases hstatus
    | exhausted outcome solved nonempty => cases hstatus
  | finished reached iterated usable exchanged ends =>
    rw [(exchange_cases exchanged).status, ends] at hstatus
    cases hstatus

/-- The start was found, but the iterations reached the point `x`, which the test of the constraints
rejects. -/
def Strays (par : Params α) (p : QuadraticProgram α) (offer : Option (Solution α)) (x : Vec α) :
    Prop :=
  ∃ stage, initialise? par p offer (start par p).state = .ok stage ∧
    stage.state.status = .feasible ∧
    ∃ s, Reached par p stage.state s ∧ s.x = x ∧ isFeasible? par p x = .ok false

end Status

variable {K : Type} [Field K] [LinearOrder K] [IsStrictOrderedRing K] [Exact K]
variable {par : Params K} {p : QuadraticProgram K}

theorem infeasible_of_solve (hpar : par.ProperRatios) (hε : 0 ≤ (Scalar.epsilon : K))
    (hmax : (Scalar.epsilon : K) < Scalar.maxValue) (hp : p.IsBuilt) {offer : Option (Solution K)}
    (hratios : StartRatiosBelowMax par p (usableOffer p offer)) {out : Outcome K} {sol : Solution K}
    (h : p.solve? par offer = .ok out) (hsol : out.result = .ok sol)
    (hstatus : sol.status = .infeasible) :
    (¬ ∃ x, p.IsFeasible x) ∨
      (∃ t, startTableau? p (usableOffer p offer) = .ok t ∧
        ∃ t' ∈ Tableau.tested par par.maxIter t, t'.phase = .one ∧
          (t'.Overlooks par ∨ t'.Stalls par)) ∨
      Strays par p offer sol.x := by
  obtain ⟨hcheck, stage, s, hstage, hlast, hs, hx, -⟩ := solve_cases h hsol
  rw [hs] at hstatus
  rcases hlast with ⟨hfeasible, last, rfl, hloop⟩ | ⟨hfailure, rfl⟩
  · have hfeasible := (status_initialise hstage hfeasible).1
    have hrejected := rejected_of_ended hfeasible (ended_of_loop .start hloop) hstatus
    rw [← hx] at hrejected
    exact Or.inr (Or.inr ⟨stage, hstage, hfeasible, hrejected⟩)
  · obtain ⟨found, hsearch, ⟨-, hprepare⟩ | ⟨-, -, hfound⟩⟩ := initialise_cases hstage
    · cases (samePoint_of_prepare hprepare).status.symm.trans hstatus
    · rcases infeasible_of_search hpar hε hmax (hp.wellSized hcheck) hratios hsearch
        (hfound.symm.trans hstatus) with hempty | hbad
      · exact Or.inl hempty
      · exact Or.inr (Or.inl hbad)

end ActiveSet

/-! ## Verdicts -/

section Verdicts

variable {K : Type} [Field K] [LinearOrder K] [IsStrictOrderedRing K] [Exact K]

/-- With proper tolerances a verdict of infeasibility or unboundedness is true of the program,
unless one of the defects took place that the tolerances make possible. -/
theorem verdicts_sound (par : Params K) (hpar : par.ProperRatios) (hthr : 0 ≤ par.pivotThreshold)
    (hε : 0 ≤ (Scalar.epsilon : K)) (hmax : (Scalar.epsilon : K) < Scalar.maxValue) :
    (∀ (p : LinearProgram K) (out : Outcome K) (s : Solution K), p.RatiosBelowMax par →
      p.solve? par = .ok out → out.result = .ok s →
        (s.status = .infeasible → (¬ ∃ x, p.IsFeasible x) ∨
          ∃ t ∈ Tableau.tested par par.maxIter p.start,
            t.phase = .one ∧ (t.Overlooks par ∨ t.Stalls par)) ∧
        (s.status = .unbounded → (∀ bound : K, ∃ x, p.IsFeasible x ∧ p.costAt x < bound) ∨
          ∃ t ∈ Tableau.tested par par.maxIter p.start,
            t.Overlooks par ∨ t.LeavesResidue ∨ t.Stalls par)) ∧
      ∀ (p : QuadraticProgram K) (offer : Option (Solution K)) (out : Outcome K) (s : Solution K),
        p.IsBuilt → ActiveSet.StartRatiosBelowMax par p (ActiveSet.usableOffer p offer) →
        p.solve? par offer = .ok out → out.result = .ok s → s.status = .infeasible →
          (¬ ∃ x, p.IsFeasible x) ∨
          (∃ t, ActiveSet.startTableau? p (ActiveSet.usableOffer p offer) = .ok t ∧
            ∃ t' ∈ Tableau.tested par par.maxIter t, t'.phase = .one ∧
              (t'.Overlooks par ∨ t'.Stalls par)) ∨
          ActiveSet.Strays par p offer s.x := by
  refine ⟨fun p out s hratios h hs => ?_, fun p offer out s hp hratios h hs hstatus => ?_⟩
  · have hfinal := LinearProgram.status_of_solve h hs
    constructor
    · intro hstatus
      exact LinearProgram.infeasible_of_solve hpar hε hmax hratios (hfinal ▸ hstatus)
    · intro hstatus
      exact LinearProgram.unbounded_of_solve hpar hthr hε hmax hratios (hfinal ▸ hstatus)
  · exact ActiveSet.infeasible_of_solve hpar hε hmax hp hratios h hs hstatus

end Verdicts

/-- Minimise `x` subject to `x ≤ 10 ^ 11`, which the origin solves. -/
def LinearProgram.farSample : LinearProgram ℚ where
  c := .ofFn (.general 1 1) fun _ _ => 1
  ae := none
  be := none
  ai := some (.ofFn (.general 1 1) fun _ _ => 1)
  bi := some (.ofFn (.general 1 1) fun _ _ => 10 ^ 11)

/-- Minimise `-x` subject to `x / 10 ^ 11 ≤ 1`, which keeps the cost above `-10 ^ 11`. -/
def LinearProgram.flatSample : LinearProgram ℚ where
  c := .ofFn (.general 1 1) fun _ _ => -1
  ae := none
  be := none
  ai := some (.ofFn (.general 1 1) fun _ _ => 1 / 10 ^ 11)
  bi := some (.ofFn (.general 1 1) fun _ _ => 1)

/-- Under the standard parameters all three verdicts are false of programs of one variable. -/
theorem verdicts_sound_sample :
    letI := Exact.double
    (∃ out s, LinearProgram.farSample.solve? .standard = .ok out ∧ out.result = .ok s ∧
      s.status = .infeasible ∧ LinearProgram.farSample.IsFeasible (fun _ => 0) ∧
      ∃ t ∈ Tableau.tested .standard 10000 LinearProgram.farSample.start,
        t.phase = .one ∧ (t.Overlooks .standard ∨ t.Stalls .standard)) ∧
    (∃ out s, LinearProgram.flatSample.solve? .standard = .ok out ∧ out.result = .ok s ∧
      s.status = .unbounded ∧
      (∀ x, LinearProgram.flatSample.IsFeasible x → -10 ^ 11 ≤ LinearProgram.flatSample.costAt x) ∧
      ∃ t ∈ Tableau.tested .standard 10000 LinearProgram.flatSample.start,
        t.Overlooks .standard ∨ t.LeavesResidue ∨ t.Stalls .standard) ∧
    ∃ out s, QuadraticProgram.farSample.solve? .standard none = .ok out ∧ out.result = .ok s ∧
      s.status = .infeasible ∧ QuadraticProgram.farSample.IsFeasible (fun _ => 10 ^ 11) ∧
      ((∃ t, ActiveSet.startTableau? QuadraticProgram.farSample none = .ok t ∧
        ∃ t' ∈ Tableau.tested .standard 10000 t, t'.phase = .one ∧
          (t'.Overlooks .standard ∨ t'.Stalls .standard)) ∨
        ActiveSet.Strays .standard QuadraticProgram.farSample none s.x) := by
  let := Exact.double
  obtain ⟨hlinear, hquadratic⟩ := verdicts_sound (.standard : Params ℚ) Params.standard_properRatios
    (Scalar.tenth_pos 5).le (by decide +kernel) (by decide +kernel)
  refine ⟨?_, ?_, ?_⟩
  · obtain ⟨out, s, hsolve, hs, hstatus⟩ := exists_solution_of_status
      (show (LinearProgram.farSample.solve? .standard).map
        (fun out => out.result.map Solution.status) = .ok (.ok .infeasible) by decide +kernel)
    have horigin : LinearProgram.farSample.IsFeasible fun _ => 0 := by
      constructor <;> decide +kernel
    refine ⟨out, s, hsolve, hs, hstatus, horigin, ?_⟩
    refine ((hlinear _ out s (by decide +kernel) hsolve hs).1 hstatus).resolve_left ?_
    exact not_not.2 ⟨_, horigin⟩
  · obtain ⟨out, s, hsolve, hs, hstatus⟩ := exists_solution_of_status
      (show (LinearProgram.flatSample.solve? .standard).map
        (fun out => out.result.map Solution.status) = .ok (.ok .unbounded) by decide +kernel)
    have hbound : ∀ x, LinearProgram.flatSample.IsFeasible x →
        -10 ^ 11 ≤ LinearProgram.flatSample.costAt x := by
      intro x hx
      have hlhs : LinearProgram.flatSample.inequalityLhs 0 x = 1 / 10 ^ 11 * x 0 := sum_range_one _
      have hcost : LinearProgram.flatSample.costAt x = -1 * x 0 := sum_range_one _
      have hrow : LinearProgram.flatSample.inequalityLhs 0 x ≤ 1 := hx.inequality 0 (by decide)
      rw [hlhs] at hrow
      rw [hcost]
      linarith
    refine ⟨out, s, hsolve, hs, hstatus, hbound, ?_⟩
    refine ((hlinear _ out s (by decide +kernel) hsolve hs).2 hstatus).resolve_left fun hlow => ?_
    obtain ⟨x, hx, hlt⟩ := hlow (-10 ^ 11)
    exact absurd (hbound x hx) (not_le.2 hlt)
  · obtain ⟨out, s, hsolve, hs, hstatus⟩ := exists_solution_of_status
      (show (QuadraticProgram.farSample.solve? .standard none).map
        (fun out => out.result.map Solution.status) = .ok (.ok .infeasible) by decide +kernel)
    have hpoint : QuadraticProgram.farSample.IsFeasible fun _ => 10 ^ 11 := by
      constructor <;> decide +kernel
    refine ⟨out, s, hsolve, hs, hstatus, hpoint, ?_⟩
    refine (hquadratic _ none out s ⟨_, _, _, _, _, _, rfl⟩ (by decide +kernel) hsolve hs
      hstatus).resolve_left ?_
    exact not_not.2 ⟨_, hpoint⟩

end QuadProg
