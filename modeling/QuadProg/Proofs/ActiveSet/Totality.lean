import QuadProg.Proofs.ActiveSet.Initialise

/-!
# No operation of a run is refused

A starting point that was found comes with a state of the right sizes. So neither the iterations nor
the exchanges after it are refused, and a program that passed its checks is solved. Nothing is
assumed about the scalars except that the bounds of the linear program for a starting point pass
their test.
-/

namespace QuadProg

namespace ActiveSet

variable {α : Type} [Scalar α]
variable {par : Params α} {p : QuadraticProgram α} {s : State α}

theorem blocking_initialise {offer : Option (Solution α)} {stage : Stage α}
    (h : initialise? par p offer s = .ok stage) (hfeasible : stage.state.status.isFeasible = true) :
    stage.state.blocking = s.blocking := by
  obtain ⟨found, hsearch, ⟨-, hprepare⟩ | ⟨hfailure, -⟩⟩ := initialise_cases h
  · obtain ⟨⟨x, l, hfound⟩, -⟩ := search_state hsearch
    refine (samePoint_of_prepare hprepare).blocking.trans ?_
    rw [hfound]
  · rw [Status.isFeasible_of_isFailure hfailure] at hfeasible
    cases hfeasible

/-- A starting point that was found comes with all that the iterations need. -/
theorem ready_initialise (hp : p.WellSized) {offer : Option (Solution α)} {stage : Stage α}
    (h : initialise? par p offer (start par p).state = .ok stage)
    (hfits : Fitting p stage.state) (hfeasible : stage.state.status.isFeasible = true) :
    Ready p stage.state := by
  obtain ⟨-, hcholesky, hminimizer, -⟩ := factor_of_initialise h hfeasible
  have hrows : ∀ l, stage.state.cholesky.factor = some l → l.rows = p.n := fun l hl =>
    (rows_factor (hcholesky ▸ hl)).trans hp.q_rows
  refine ⟨hfits, hrows, fun m hm => ?_, fun i hi => ?_⟩
  · obtain ⟨l, hl, hsize⟩ := factor_of_solveVec (hminimizer m hm)
    exact hsize.trans (hrows l hl)
  · rw [blocking_initialise h hfeasible] at hi
    cases hi

end ActiveSet

namespace QuadraticProgram

open ActiveSet

variable {α : Type} [Scalar α]

/-- A program that passed its checks is solved: nothing is refused on the way. -/
theorem solveValid_total (par : Params α) {p : QuadraticProgram α} (offer : Option (Solution α))
    (hp : p.WellSized) (hme : p.me ≤ p.n) (hsigned : HasSignedBounds p)
    (hroom : NeedsSearch par p (usableOffer p offer) → StartFits p) :
    ∃ out, solveValid? par p offer = .ok out := by
  obtain ⟨stage, hstage, hfits, -⟩ := initialise_fits par (s := (start par p).state) hp hsigned hme
    offer hroom (Vec.size_zeros p.n) (Vec.size_zeros _) (WorkingSet.count_empty p.mi)
  obtain ⟨last, hlast, hx⟩ : ∃ last, iterations? par p stage.state = .ok last ∧
      last.state.x.size = p.n := by
    unfold iterations?
    split
    · next hfeasible =>
      obtain ⟨last, hlast, hready⟩ := (ready_initialise hp hstage hfits hfeasible).loop_total par hp
        (par.maxIter - stage.state.iterations)
      rw [hlast]
      exact ⟨_, rfl, hready.size_x⟩
    · exact ⟨_, rfl, hfits.size_x⟩
  obtain ⟨sol, hsol⟩ := solution_total hp hx
  exact ⟨_, Checked.bind_eq_ok_iff.2 ⟨stage, hstage, Checked.bind_eq_ok_iff.2 ⟨last, hlast,
    Checked.bind_eq_ok_iff.2 ⟨sol, hsol, rfl⟩⟩⟩⟩

/-- A program without constraints that passed its checks is solved from the origin. -/
theorem solve_unconstrained {par : Params α} {p : QuadraticProgram α} (hp : p.WellSized)
    (hfits : p.Fits) (hcheck : p.check par.zeroThreshold = .ok ())
    (hfree : p.isConstrained = false) :
    ∃ out sol stage, p.solve? par none = .ok out ∧ out.result = .ok sol ∧
      initialise? par p none (start par p).state = .ok stage ∧
      stage.state.status = .feasible ∧ stage.state.x = p.origin := by
  obtain ⟨hme, hmi⟩ : p.me = 0 ∧ p.mi = 0 := by simpa [isConstrained] using hfree
  have hnone : ¬ NeedsSearch par p none := fun h => ne_true_of_eq_false hfree h.1
  obtain ⟨out, hout⟩ := solveValid_total par none hp (hme.trans_le (Nat.zero_le p.n))
    (fun r hr => absurd hr (by omega)) fun h => absurd h hnone
  obtain ⟨stage, last, value, hstage, -, hsolved⟩ := solveValid_step hout
  obtain ⟨hstatus, hx⟩ := initialise_unconstrained hfree hstage
  refine ⟨out, _, stage, ?_, congrArg Outcome.result hsolved, hstage, hstatus, hx⟩
  rw [solve?, require_eq_ok hfits, hcheck]
  exact hout

end QuadraticProgram

end QuadProg
