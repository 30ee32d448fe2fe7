import QuadProg.Proofs.ActiveSet.Feasibility
import QuadProg.Proofs.ActiveSet.Optimality
import QuadProg.Proofs.ActiveSet.Totality

/-!
# Optima of semidefinite programs

With a quadratic term that is only semidefinite, a run can end at an optimum in two ways. Either the
last subproblem was solved, and its solution certifies the point; or the subproblem was still
without a solution when the working set was empty, and the point is kept without any test of the
gradient. The second way is open exactly to programs with a flat direction. Such a run stops where
it started if no inequality is tight there.
-/

namespace QuadProg

open Finset

namespace ActiveSet

variable {K : Type} [Field K] [LinearOrder K] [Exact K]
variable {par : Params K} {p : QuadraticProgram K} {s s' : State K}

/-! ## A run with an empty working set -/

theorem members_eq_nil (hs : Consistent p s) (hcount : s.working.count = p.mi)
    (hstrict : ∀ i < p.mi, p.ai.lhs i s.x.entry < p.bound i) : s.working.members = [] := by
  refine List.eq_nil_iff_forall_not_mem.2 fun i hi => ?_
  have hcontains := WorkingSet.mem_members.1 hi
  have hlt := WorkingSet.lt_count_of_contains hcontains
  rw [hcount] at hlt
  exact (hstrict i hlt).ne (hs.tight i hcontains)

omit [Field K] [LinearOrder K] [Exact K] in
theorem members_shrunk (h : Shrunk s s') (hs : s.working.members = []) :
    s'.working.members = [] := by
  refine List.eq_nil_iff_forall_not_mem.2 fun i hi => ?_
  have hmem := WorkingSet.mem_members.2 (h.contains i (WorkingSet.mem_members.1 hi))
  rw [hs] at hmem
  cases hmem

variable [IsStrictOrderedRing K]

/-- With a flat direction and an empty working set an iteration keeps the point and calls it
feasible. -/
theorem iterate_of_hasFlatDirection [ExactRoots K] (hpar : par.IsExact) (hp : p.WellSized)
    (hsymm : p.q.IsSymm) (hflat : p.HasFlatDirection) (hprepared : Prepared par p s)
    (hs : Consistent p s) (hempty : s.working.members = []) {moved : Stage K}
    (h : iterate? par p s = .ok moved) :
    moved.state.x = s.x ∧ moved.state.working.members = [] ∧ moved.state.blocking = none ∧
      moved.state.status = .feasible := by
  obtain ⟨s₁, hshrunk, hattempt⟩ := iterate_cases h
  have hx : s₁.x = s.x := hshrunk.x
  have hblocking : s₁.blocking = none := hshrunk.blocking
  have hempty₁ : s₁.working.members = [] := members_shrunk hshrunk hempty
  have hremembers := (hprepared.unblocked.shrunk hshrunk).remembers hp hsymm hpar.zeroThreshold.ge
  generalize moved.state = s₂ at hattempt ⊢
  cases hattempt with
  | stepped outcome target stage solved found step =>
    rw [hempty₁] at solved
    rw [target_eq_none_of_hasFlatDirection hremembers hp hsymm hflat solved] at found
    cases found
  | stuck outcome feasible solved unsolvable empty test =>
    have hpoint : p.IsFeasible s₁.x.entry := by
      rw [hx]
      exact hs.feasible
    rw [(isFeasible_iff hpar.slack test).2 hpoint]
    exact ⟨hx, hempty₁, hblocking, rfl⟩
  | exhausted outcome solved nonempty => exact absurd hempty₁ nonempty

/-- At a feasible point with an empty working set there is nothing to exchange. -/
theorem exchange_of_members_eq_nil {goesOn : Bool} (hs : Consistent p s)
    (hcount : s.working.count = p.mi) (hempty : s.working.members = [])
    (hblocking : s.blocking = none) (h : Exchanged par p s goesOn s') :
    goesOn = false ∧ s'.x = s.x ∧ s'.status = .optimal := by
  cases h with
  | finished settled => exact ⟨rfl, rfl, rfl⟩
  | joined i joins =>
    rcases joining_eq_some joins with hsome | hviolated
    · rw [hblocking] at hsome
      cases hsome
    · obtain ⟨hother, hlt⟩ := lt_lhs_of_mostViolated hviolated
      have hrange := (WorkingSet.mem_others.1 hother).1
      rw [hcount] at hrange
      exact absurd hlt (not_lt.2 (hs.feasible.inequality i hrange))
  | left i stays leaves =>
    have hmem := (Selection.mem_of_choice_least leaves).1
    rw [hempty] at hmem
    cases hmem

/-- With a flat direction the loop ends at once if it starts with an empty working set, at the point
where it starts. -/
theorem loop_of_hasFlatDirection [ExactRoots K] (hpar : par.IsExact) (hp : p.WellSized)
    (hsymm : p.q.IsSymm) (hflat : p.HasFlatDirection) (hprepared : Prepared par p s)
    (hs : Consistent p s) (hempty : s.working.members = []) {fuel : ℕ} {last : Stage K}
    (h : loop? par p (fuel + 1) s = .ok last) :
    last.state.status = .optimal ∧ last.state.x = s.x := by
  obtain ⟨moved, hmoved, hround⟩ := loop_cases h
  obtain ⟨hx, hempty', hblocking, hstatus⟩ :=
    iterate_of_hasFlatDirection hpar hp hsymm hflat hprepared hs hempty hmoved
  have hcount := (hprepared.iterated hmoved).count
  have hkept : Consistent p moved.state := by
    refine ⟨by rw [hx]; exact hs.size_x, by rw [hx]; exact hs.feasible, fun i hi => ?_,
      fun i hi => ?_⟩
    · have hmem := WorkingSet.mem_members.2 hi
      rw [hempty'] at hmem
      cases hmem
    · rw [hblocking] at hi
      cases hi
  rcases hround with ⟨hfailure, -⟩ | ⟨-, e, he, hend⟩
  · rw [hstatus] at hfailure
    cases hfailure
  · obtain ⟨hends, hxe, hoptimal⟩ :=
      exchange_of_members_eq_nil hkept.counted hcount hempty' hblocking (exchange_cases he)
    rcases hend with ⟨-, hstate, -⟩ | ⟨hgoesOn, -⟩
    · rw [hstate]
      exact ⟨hoptimal, hxe.trans hx⟩
    · rw [hends] at hgoesOn
      cases hgoesOn

end ActiveSet

namespace QuadraticProgram

open ActiveSet

variable {K : Type} [Field K] [LinearOrder K] [IsStrictOrderedRing K] [Exact K] [ExactRoots K]

/-- An optimum of a semidefinite program is feasible, and it is a minimum unless the program has a
flat direction and the run ended with an empty working set. With a flat direction and no inequality
that is tight at the starting point, the starting point is called optimal, whatever the gradient is
there. -/
theorem optimum_of_semidefinite (par : Params K) (p : QuadraticProgram K)
    (offer : Option (Solution K)) (hp : p.IsBuilt) (hsymm : p.q.IsSymm) (hpsd : p.q.IsPosSemidef)
    (hpar : par.IsExact) (hε : (Scalar.epsilon : K) = 0) {out : Outcome K} {sol : Solution K}
    (hsolve : p.solve? par offer = .ok out) (hsol : out.result = .ok sol) :
    (sol.status = .optimal → p.IsFeasible sol.x.entry ∧
      (p.IsMinimum sol.x.entry ∨ p.HasFlatDirection ∧
        ∃ stage s, initialise? par p offer (start par p).state = .ok stage ∧
          Ended par p stage.state s ∧ s.x = sol.x ∧ s.status = .optimal ∧
          s.working.members = [])) ∧
    (p.HasFlatDirection → 0 < par.maxIter →
      ∀ stage, initialise? par p offer (start par p).state = .ok stage →
        stage.state.status = .feasible →
        (∀ i < p.mi, p.ai.lhs i stage.state.x.entry < p.bound i) →
          sol.status = .optimal ∧ sol.x = stage.state.x) := by
  obtain ⟨hcheck, stage, s, hstage, hrun, hstatus, hx, -⟩ := solve_cases hsolve hsol
  have hsized := hp.wellSized hcheck
  have hthreshold := hpar.zeroThreshold
  rw [hstatus, hx]
  constructor
  · intro hoptimal
    rcases hrun with ⟨hfeasible, last, rfl, hloop⟩ | ⟨hnot, rfl⟩
    · have hprepared := prepared_initialise hstage hfeasible
      have hstart := consistent_initialise hpar hε hsized hstage hfeasible
      have hend : Ended par p stage.state last.state := ended_of_loop .start hloop
      refine ⟨(hstart.ended hpar hsized hsymm hpsd hprepared hend).feasible, ?_⟩
      have hnot : stage.state.status ≠ .optimal := by
        rw [(status_initialise hstage hfeasible).1]
        exact fun h => by cases h
      obtain ⟨s, moved, hlast, hattempt, husable, hexchanged⟩ :=
        last_iteration hprepared hnot hend hoptimal
      rcases certified_or_flat hthreshold hsized hsymm hpsd hcheck hlast hattempt husable
        hexchanged with ⟨y, hy⟩ | ⟨hflat, hempty⟩
      · exact Or.inl (hy.isMinimum hsized hsymm hpsd hpar.slack hpar.solution)
      · exact Or.inr ⟨hflat, stage, last.state, hstage, hend, rfl, hoptimal, hempty⟩
    · rw [hoptimal] at hnot
      cases hnot
  · intro hflat hiter stage' hstage' hstatus' hstrict
    obtain rfl := Except.ok.inj (hstage'.symm.trans hstage)
    have hfeasible : stage'.state.status.isFeasible = true := by
      rw [hstatus']
      rfl
    have hprepared := prepared_initialise hstage hfeasible
    have hstart := consistent_initialise hpar hε hsized hstage hfeasible
    rcases hrun with ⟨-, last, rfl, hloop⟩ | ⟨hnot, -⟩
    · have hnew : stage'.state.iterations = 0 := (status_initialise hstage hfeasible).2
      obtain ⟨fuel, hfuel⟩ := Nat.exists_eq_succ_of_ne_zero hiter.ne'
      rw [hnew, Nat.sub_zero, hfuel] at hloop
      exact loop_of_hasFlatDirection hpar hsized hsymm hflat hprepared hstart
        (members_eq_nil hstart hprepared.count hstrict) hloop
    · rw [hfeasible] at hnot
      cases hnot

theorem lhs_flatSample (i : ℕ) (z : ℕ → ℝ) :
    letI := Exact.real 1000
    flatSample.q.lhs i z = if i = 0 then z 0 else 0 := by
  let := Exact.real 1000
  rcases i with _ | _ | i
  · simp [flatSample, ofData, Mat.lhs, Mat.cols, Mat.get, Shape.cols, Shape.Contains, Shape.index,
      Shape.rows, sum_range_succ]
  · simp [flatSample, ofData, Mat.lhs, Mat.cols, Mat.get, Shape.cols, Shape.Contains, Shape.index,
      Shape.rows, sum_range_succ]
  · simp [flatSample, ofData, Mat.lhs, Mat.cols, Mat.get, Shape.cols, Shape.Contains,
      Shape.rows]

theorem objectiveAt_flatSample (z : ℕ → ℝ) :
    letI := Exact.real 1000
    flatSample.objectiveAt z = 1 / 2 * (z 0 * z 0) - z 0 := by
  let := Exact.real 1000
  have hform : flatSample.q.bilin z z = z 0 * z 0 := by
    rw [Mat.bilin, show flatSample.q.rows = 2 from rfl]
    simp [lhs_flatSample]
  rw [objectiveAt, hform, show flatSample.n = 2 from rfl]
  simp [flatSample, ofData, Mat.get, Shape.cols, Shape.Contains, Shape.index, Shape.rows,
    sum_range_succ]

theorem solve_flatSample :
    letI := Exact.real 1000
    ∃ out sol stage, flatSample.solve? sampleParams none = .ok out ∧ out.result = .ok sol ∧
      initialise? sampleParams flatSample none (start sampleParams flatSample).state = .ok stage ∧
      stage.state.status = .feasible ∧ stage.state.x = Vec.zeros 2 := by
  let := Exact.real 1000
  have hcheck : flatSample.check sampleParams.zeroThreshold = .ok () := rfl
  have hfits : flatSample.Fits := ⟨show 0 * 2 < arrayBound by decide,
    show 0 + 0 < wordBound by decide, show 0 * 0 < arrayBound by decide⟩
  exact solve_unconstrained (IsBuilt.wellSized ⟨_, _, _, _, _, _, rfl⟩ hcheck) hfits hcheck rfl

theorem hasFlatDirection_flatSample :
    letI := Exact.real 1000
    flatSample.HasFlatDirection := by
  let := Exact.real 1000
  refine ⟨fun j => if j = 1 then 1 else 0, ⟨1, Nat.one_lt_two, by simp⟩, fun j _ => ?_,
    fun r hr => absurd hr (Nat.not_lt_zero r)⟩
  rw [lhs_flatSample]
  simp

theorem isSymm_flatSample :
    letI := Exact.real 1000
    flatSample.q.IsSymm := by
  let := Exact.real 1000
  intro i j
  rcases i with _ | _ | i <;> rcases j with _ | _ | j <;>
    simp [flatSample, ofData, Mat.get, Shape.cols, Shape.Contains, Shape.index, Shape.rows]

theorem isPosSemidef_flatSample :
    letI := Exact.real 1000
    flatSample.q.IsPosSemidef := by
  let := Exact.real 1000
  intro x
  rw [Mat.bilin, show flatSample.q.rows = 2 from rfl]
  simpa [lhs_flatSample] using mul_self_nonneg (x 0)

/-- The program has a minimum, but the origin, where the run stops, is none. -/
theorem optimum_of_semidefinite_flatSample :
    letI := Exact.real 1000
    flatSample.HasFlatDirection ∧ flatSample.IsMinimum (fun _ => 1) ∧
    ∃ out sol, flatSample.solve? sampleParams none = .ok out ∧ out.result = .ok sol ∧
      sol.status = .optimal ∧ sol.x = Vec.zeros 2 ∧ flatSample.IsFeasible sol.x.entry ∧
      ¬ flatSample.IsMinimum sol.x.entry := by
  let := Exact.real 1000
  have := ExactRoots.real 1000
  have hfree : ∀ z, flatSample.IsFeasible z := fun z =>
    ⟨fun r hr => absurd hr (Nat.not_lt_zero r), fun i hi => absurd hi (Nat.not_lt_zero i)⟩
  have hminimum : flatSample.IsMinimum (fun _ => 1) := by
    refine ⟨hfree _, fun z _ => ?_⟩
    rw [objectiveAt_flatSample, objectiveAt_flatSample]
    nlinarith [mul_self_nonneg (z 0 - 1)]
  obtain ⟨out, sol, stage, hsolve, hsol, hstage, hstatus, hpoint⟩ := solve_flatSample
  obtain ⟨hsound, hstops⟩ := optimum_of_semidefinite sampleParams flatSample none
    ⟨_, _, _, _, _, _, rfl⟩ isSymm_flatSample isPosSemidef_flatSample isExact_sampleParams rfl
    hsolve hsol
  obtain ⟨hoptimal, hstopped⟩ := hstops hasFlatDirection_flatSample (show 0 < 10 by decide) stage
    hstage hstatus fun i hi => absurd hi (Nat.not_lt_zero i)
  have hx : sol.x = Vec.zeros 2 := hstopped.trans hpoint
  refine ⟨hasFlatDirection_flatSample, hminimum, out, sol, hsolve, hsol, hoptimal, hx,
    (hsound hoptimal).1, fun h => ?_⟩
  have hle := h.le _ hminimum.feasible
  rw [hx, objectiveAt_flatSample, objectiveAt_flatSample, Vec.entry_zeros] at hle
  norm_num at hle

end QuadraticProgram

end QuadProg
