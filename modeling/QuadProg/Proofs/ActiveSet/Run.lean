import QuadProg.Proofs.ActiveSet.Subproblem

/-!
# Runs

The states that a run passes through, and where it can end. What a run remembers of the program, the
factor of its quadratic term and its unconstrained minimiser, stays true of the program.
-/

namespace QuadProg

namespace ActiveSet

section States

variable {α : Type} [Scalar α]
variable {par : Params α} {p : QuadraticProgram α} {s₀ s : State α}

/-- The state with one more iteration counted. -/
def State.counted (s : State α) : State α := { s with iterations := s.iterations + 1 }

/-- The states from which a run that starts at `s₀` iterates. -/
inductive Reached (par : Params α) (p : QuadraticProgram α) (s₀ : State α) : State α → Prop
  | start : Reached par p s₀ s₀
  | next {s : State α} {moved : Stage α} {e : Exchange α} (reached : Reached par p s₀ s)
      (iterated : iterate? par p s = .ok moved) (usable : moved.state.status.isFailure = false)
      (exchanged : exchange? par p moved.state.counted = .ok e) (goesOn : e.goesOn = true) :
      Reached par p s₀ e.state

/-- The states in which a run that starts at `s₀` can end: at the limit of iterations, after an
iteration that failed, or when there is nothing to exchange. -/
inductive Ended (par : Params α) (p : QuadraticProgram α) (s₀ : State α) : State α → Prop
  | limit {s : State α} (reached : Reached par p s₀ s) : Ended par p s₀ s
  | failed {s : State α} {moved : Stage α} (reached : Reached par p s₀ s)
      (iterated : iterate? par p s = .ok moved) (failure : moved.state.status.isFailure = true) :
      Ended par p s₀ moved.state.counted
  | finished {s : State α} {moved : Stage α} {e : Exchange α} (reached : Reached par p s₀ s)
      (iterated : iterate? par p s = .ok moved) (usable : moved.state.status.isFailure = false)
      (exchanged : exchange? par p moved.state.counted = .ok e) (ends : e.goesOn = false) :
      Ended par p s₀ e.state

theorem iterate_cases {moved : Stage α} (h : iterate? par p s = .ok moved) :
    ∃ s', Shrunk { s with blocking := none } s' ∧ Attempted par p s' moved.state :=
  attempt_cases h

/-- One round of the loop: an iteration, and unless it failed an exchange. -/
theorem loop_cases {fuel : ℕ} {stage : Stage α} (h : loop? par p (fuel + 1) s = .ok stage) :
    ∃ moved, iterate? par p s = .ok moved ∧
      let told : List (Event α) := .iteration s.iterations s.status :: moved.trace.events
      ((moved.state.status.isFailure = true ∧ stage.state = moved.state.counted ∧
          stage.trace.events = told) ∨
        moved.state.status.isFailure = false ∧
          ∃ e, exchange? par p moved.state.counted = .ok e ∧
            ((e.goesOn = false ∧ stage.state = e.state ∧
                stage.trace.events = told ++ e.trace.events) ∨
              e.goesOn = true ∧ ∃ rest, loop? par p fuel e.state = .ok rest ∧
                stage.state = rest.state ∧
                stage.trace.events = told ++ e.trace.events ++ rest.trace.events)) := by
  obtain ⟨moved, hiterate, h⟩ := Checked.bind_eq_ok_iff.1 h
  refine ⟨moved, hiterate, ?_⟩
  dsimp only at h ⊢
  split at h
  · next hfailure =>
    obtain rfl := Except.ok.inj h
    exact Or.inl ⟨hfailure, rfl, by simp⟩
  · next hfailure =>
    obtain ⟨e, hexchange, h⟩ := Checked.bind_eq_ok_iff.1 h
    refine Or.inr ⟨Bool.eq_false_of_not_eq_true hfailure, e, hexchange, ?_⟩
    split at h
    · next hgoesOn =>
      obtain ⟨rest, hrest, h⟩ := Checked.bind_eq_ok_iff.1 h
      obtain rfl := Except.ok.inj h
      exact Or.inr ⟨hgoesOn, rest, hrest, rfl, by simp⟩
    · next hgoesOn =>
      obtain rfl := Except.ok.inj h
      exact Or.inl ⟨Bool.eq_false_of_not_eq_true hgoesOn, rfl, by simp⟩

theorem ended_of_loop {fuel : ℕ} {stage : Stage α} (hs : Reached par p s₀ s)
    (h : loop? par p fuel s = .ok stage) : Ended par p s₀ stage.state := by
  induction fuel generalizing s stage with
  | zero =>
    obtain rfl := Except.ok.inj h
    exact .limit hs
  | succ fuel ih =>
    obtain ⟨moved, hiterate, ⟨hfailure, hstate, -⟩ | ⟨husable, e, hexchange, hround⟩⟩ :=
      loop_cases h
    · rw [hstate]
      exact .failed hs hiterate hfailure
    · rcases hround with ⟨hends, hstate, -⟩ | ⟨hgoesOn, rest, hrest, hstate, -⟩
      · rw [hstate]
        exact .finished hs hiterate husable hexchange hends
      · rw [hstate]
        exact ih (.next hs hiterate husable hexchange hgoesOn) hrest

theorem status_of_reached (h₀ : s₀.status ≠ .optimal) (h : Reached par p s₀ s) :
    s.status ≠ .optimal := by
  induction h with
  | start => exact h₀
  | next _ _ _ exchanged goesOn _ =>
    rw [(exchange_cases exchanged).status, if_pos goesOn]
    exact fun h => by cases h

theorem isFeasible_of_reached (h₀ : s₀.status = .feasible) (h : Reached par p s₀ s) :
    s.status.isFeasible = true := by
  induction h with
  | start =>
    rw [h₀]
    rfl
  | next _ _ _ exchanged goesOn _ =>
    rw [(exchange_cases exchanged).status, if_pos goesOn]
    rfl

/-- The state `s'` has what `s` keeps of the program: the factor, the minimiser, the threshold of
pivots and the number of inequalities. -/
structure Inherits (s s' : State α) : Prop where
  count : s'.working.count = s.working.count
  cholesky : s'.cholesky = s.cholesky
  minimizer : s'.minimizer = s.minimizer
  threshold : s'.lu.threshold = s.lu.threshold

omit [Scalar α] in
theorem Inherits.refl (s : State α) : Inherits s s := ⟨rfl, rfl, rfl, rfl⟩

omit [Scalar α] in
theorem Inherits.trans {s₁ s₂ s₃ : State α} (h₁ : Inherits s₁ s₂) (h₂ : Inherits s₂ s₃) :
    Inherits s₁ s₃ :=
  ⟨h₂.count.trans h₁.count, h₂.cholesky.trans h₁.cholesky, h₂.minimizer.trans h₁.minimizer,
    h₂.threshold.trans h₁.threshold⟩

omit [Scalar α] in
theorem Shrunk.inherits {s' : State α} (h : Shrunk s s') : Inherits s s' :=
  ⟨h.count, h.cholesky, h.minimizer, h.threshold⟩

theorem Attempted.inherits {s' : State α} (h : Attempted par p s s') : Inherits s s' := by
  cases h with
  | stepped outcome target stage solved found step =>
    have hlu := threshold_subproblem solved
    obtain ⟨-, -, ⟨-, hstate⟩ | ⟨-, stride, -, hstate⟩⟩ := takeStep_cases step
    · rw [hstate]
      exact ⟨rfl, rfl, rfl, hlu⟩
    · rw [hstate]
      exact ⟨rfl, rfl, rfl, hlu⟩
  | stuck outcome feasible solved unsolvable empty test =>
    exact ⟨rfl, rfl, rfl, threshold_subproblem solved⟩
  | exhausted outcome solved nonempty => exact ⟨rfl, rfl, rfl, threshold_subproblem solved⟩

theorem Attempted.iterations {s' : State α} (h : Attempted par p s s') :
    s'.iterations = s.iterations := by
  cases h with
  | stepped outcome target stage solved found step =>
    obtain ⟨-, -, ⟨-, hstate⟩ | ⟨-, stride, -, hstate⟩⟩ := takeStep_cases step
    · rw [hstate]
    · rw [hstate]
  | stuck outcome feasible solved unsolvable empty test => rfl
  | exhausted outcome solved nonempty => rfl

theorem iterations_of_iterate {moved : Stage α} (h : iterate? par p s = .ok moved) :
    moved.state.iterations = s.iterations := by
  obtain ⟨s', hshrunk, hattempt⟩ := iterate_cases h
  exact hattempt.iterations.trans hshrunk.iterations

/-- An iteration ends with a point that satisfies the constraints, or it fails. -/
theorem Attempted.status {s' : State α} (h : Attempted par p s s') :
    (s'.status = .feasible ∨ s'.status = .approximate) ∨
      s'.status = .infeasible ∨ s'.status = .failed := by
  cases h with
  | stepped outcome target stage solved found step =>
    obtain ⟨-, -, ⟨-, hstate⟩ | ⟨-, stride, -, hstate⟩⟩ := takeStep_cases step
    · exact Or.inl (Or.inl (by rw [hstate]))
    · exact Or.inl (Or.inr (by rw [hstate]))
  | stuck outcome feasible solved unsolvable empty test =>
    cases feasible with
    | true => exact Or.inl (Or.inl rfl)
    | false => exact Or.inr (Or.inl rfl)
  | exhausted outcome solved nonempty => exact Or.inr (Or.inr rfl)

theorem Exchanged.iterations {goesOn : Bool} {s' : State α} (h : Exchanged par p s goesOn s') :
    s'.iterations = s.iterations := by
  cases h with
  | finished settled => rfl
  | joined i joins => rfl
  | left i stays leaves => rfl

theorem Exchanged.inherits {goesOn : Bool} {s' : State α} (h : Exchanged par p s goesOn s') :
    Inherits s s' := by
  cases h with
  | finished settled => exact ⟨rfl, rfl, rfl, rfl⟩
  | joined i joins => exact ⟨s.working.count_insert i, rfl, rfl, rfl⟩
  | left i stays leaves =>
    have hdrop := shrunk_drop s p.me i
    exact ⟨hdrop.count, hdrop.cholesky, hdrop.minimizer, hdrop.threshold⟩

theorem inherits_of_iterate {moved : Stage α} (h : iterate? par p s = .ok moved) :
    Inherits s moved.state := by
  obtain ⟨s', hshrunk, hattempt⟩ := iterate_cases h
  exact Inherits.trans ⟨hshrunk.count, hshrunk.cholesky, hshrunk.minimizer, hshrunk.threshold⟩
    hattempt.inherits

theorem Reached.inherits (h : Reached par p s₀ s) : Inherits s₀ s := by
  induction h with
  | start => exact Inherits.refl s₀
  | next _ iterated _ exchanged _ ih =>
    have hexchange := (exchange_cases exchanged).inherits
    refine (ih.trans (inherits_of_iterate iterated)).trans ?_
    exact ⟨hexchange.count, hexchange.cholesky, hexchange.minimizer, hexchange.threshold⟩

/-- A start that is found has the factor of the quadratic term and the minimiser that it gives. -/
theorem factor_of_initialise {offer : Option (Solution α)} {stage : Stage α}
    (h : initialise? par p offer (start par p).state = .ok stage)
    (hfeasible : stage.state.status.isFeasible = true) :
    stage.state.working.count = p.mi ∧
      stage.state.cholesky = (Cholesky.init par.zeroThreshold).compute p.q ∧
      (∀ m, stage.state.minimizer = some m → stage.state.cholesky.solveVec? p.c.data = .ok m) ∧
      stage.state.lu.threshold = par.zeroThreshold := by
  obtain ⟨found, hsearch, ⟨-, hprepare⟩ | ⟨hfailure, -⟩⟩ := initialise_cases h
  · obtain ⟨⟨x, l, hfound⟩, -⟩ := search_state hsearch
    obtain ⟨s₁, s₂, l', m, hjoin, hshrunk, hstate, hm⟩ := prepare_cases hprepare
    obtain ⟨working, rfl, hworking⟩ := joinTight_cases hjoin
    have hcount : found.state.working.count = p.mi := by
      rw [hfound]
      exact (WorkingSet.count_clear _).trans (WorkingSet.count_empty p.mi)
    have hworking : working.count = p.mi := by
      rcases hworking with ⟨-, rfl⟩ | ⟨values, -, rfl⟩
      · exact hcount
      · exact (count_foldl_joinTight _ _).trans hcount
    rw [hstate]
    refine ⟨hshrunk.count.trans hworking, hshrunk.cholesky.trans ?_, hm, hshrunk.threshold.trans ?_⟩
    · rw [hfound]
      rfl
    · rw [hfound]
      rfl
  · rw [Status.isFeasible_of_isFailure hfailure] at hfeasible
    cases hfeasible

/-- A program that passed its checks is solved in two stages: the start and the iterations. -/
theorem solveValid_step {offer : Option (Solution α)} {out : Outcome α}
    (h : solveValid? par p offer = .ok out) :
    ∃ stage last value, initialise? par p offer (start par p).state = .ok stage ∧
      iterations? par p stage.state = .ok last ∧
      out = ⟨.ok ⟨last.state.status, last.state.x, some last.state.multipliers, value,
          last.state.iterations⟩,
        (start par p).trace ++ .note .initializing :: stage.trace ++ last.trace ++
          closing last.state.status⟩ := by
  obtain ⟨stage, hstage, h⟩ := Checked.bind_eq_ok_iff.1 h
  obtain ⟨last, hlast, h⟩ := Checked.bind_eq_ok_iff.1 h
  obtain ⟨sol, hsol, h⟩ := Checked.bind_eq_ok_iff.1 h
  obtain ⟨value, -, hsol⟩ := Checked.bind_eq_ok_iff.1 hsol
  obtain rfl := Except.ok.inj hsol
  exact ⟨stage, last, value, hstage, hlast, (Except.ok.inj h).symm⟩

/-- A program is rejected, or it passes its checks and is solved. -/
theorem solve_step {offer : Option (Solution α)} {out : Outcome α}
    (h : p.solve? par offer = .ok out) :
    (∃ d, out = p.reject d) ∨ p.check par.zeroThreshold = .ok () ∧ ∃ stage last value,
      initialise? par p offer (start par p).state = .ok stage ∧
      iterations? par p stage.state = .ok last ∧
      out = ⟨.ok ⟨last.state.status, last.state.x, some last.state.multipliers, value,
          last.state.iterations⟩,
        (start par p).trace ++ .note .initializing :: stage.trace ++ last.trace ++
          closing last.state.status⟩ := by
  obtain ⟨-, -, h⟩ := Checked.bind_eq_ok_iff.1 h
  split at h
  · next d _ => exact Or.inl ⟨d, (Except.ok.inj h).symm⟩
  · next hcheck => exact Or.inr ⟨hcheck, solveValid_step h⟩

/-- The loop is entered with a starting point only. -/
theorem iterations_cases {last : Stage α} (h : iterations? par p s = .ok last) :
    (s.status.isFeasible = true ∧ ∃ looped,
        loop? par p (par.maxIter - s.iterations) s = .ok looped ∧
        last.state = looped.state ∧ last.trace.events = looped.trace.events) ∨
      s.status.isFeasible = false ∧ last = ⟨s, []⟩ := by
  unfold iterations? at h
  split at h
  · next hfeasible =>
    obtain ⟨looped, hloop, h⟩ := Checked.bind_eq_ok_iff.1 h
    obtain rfl := Except.ok.inj h
    exact Or.inl ⟨hfeasible, looped, hloop, rfl, rfl⟩
  · next hfeasible =>
    exact Or.inr ⟨Bool.eq_false_of_not_eq_true hfeasible, (Except.ok.inj h).symm⟩

/-- A program that is solved was accepted. Its solution is read off the state in which the loop from
its starting point ended, or off the state without a starting point. -/
theorem solution_of_solve {offer : Option (Solution α)} {out : Outcome α} {sol : Solution α}
    (h : p.solve? par offer = .ok out) (hsol : out.result = .ok sol) :
    p.check par.zeroThreshold = .ok () ∧ ∃ stage s value,
      initialise? par p offer (start par p).state = .ok stage ∧
      ((stage.state.status.isFeasible = true ∧ ∃ last, s = last.state ∧
          loop? par p (par.maxIter - stage.state.iterations) stage.state = .ok last) ∨
        stage.state.status.isFeasible = false ∧ s = stage.state) ∧
      sol = ⟨s.status, s.x, some s.multipliers, value, s.iterations⟩ := by
  rcases solve_step h with ⟨d, rfl⟩ | ⟨hcheck, stage, last, value, hstage, hlast, rfl⟩
  · cases hsol
  · obtain rfl := Except.ok.inj hsol
    refine ⟨hcheck, stage, last.state, value, hstage, ?_, rfl⟩
    rcases iterations_cases hlast with ⟨hfeasible, looped, hloop, hstate, -⟩ | ⟨hfeasible, rfl⟩
    · exact Or.inl ⟨hfeasible, looped, hstate, hloop⟩
    · exact Or.inr ⟨hfeasible, rfl⟩

theorem solve_cases {offer : Option (Solution α)} {out : Outcome α} {sol : Solution α}
    (h : p.solve? par offer = .ok out) (hsol : out.result = .ok sol) :
    p.check par.zeroThreshold = .ok () ∧ ∃ stage s,
      initialise? par p offer (start par p).state = .ok stage ∧
      ((stage.state.status.isFeasible = true ∧ ∃ last, s = last.state ∧
          loop? par p (par.maxIter - stage.state.iterations) stage.state = .ok last) ∨
        stage.state.status.isFeasible = false ∧ s = stage.state) ∧
      sol.status = s.status ∧ sol.x = s.x ∧ sol.multipliers = some s.multipliers := by
  obtain ⟨hcheck, stage, s, value, hstage, hlast, rfl⟩ := solution_of_solve h hsol
  exact ⟨hcheck, stage, s, hstage, hlast, rfl, rfl, rfl⟩

/-- An iteration whose subproblem has a solution takes the step towards it. -/
theorem iterate_of_target {outcome : Attempt α} {target : Target α}
    (hsolved : subproblem? p { s with blocking := none } s.working.members = .ok outcome)
    (hfound : outcome.target = some target) :
    iterate? par p s = takeStep? par p { s with blocking := none, lu := outcome.lu }
      s.working.members target := by
  unfold iterate? attempt?
  simp only [hsolved, hfound, bind, Except.bind]

theorem exchange_of_joining (hmi : p.mi ≠ 0) {i : ℕ} (hjoin : joining? par p s = .ok (some i))
    (hi : i < s.working.count) :
    exchange? par p s = .ok (proceed { s with working := s.working.insert i }
      [.note (.exchange s.iterations (some i) none)]) := by
  rw [exchange?, if_neg hmi]
  exact Checked.bind_eq_ok_iff.2 ⟨_, hjoin,
    Checked.bind_eq_ok_iff.2 ⟨_, guarded_eq_ok_iff.2 ⟨hi, rfl⟩, rfl⟩⟩

theorem exchange_of_settled (hmi : p.mi ≠ 0) (hjoin : joining? par p s = .ok none)
    (hleave : leaving? par p s = .ok none) :
    exchange? par p s = .ok (finish s [.note (.exchange s.iterations none none)]) := by
  rw [exchange?, if_neg hmi]
  exact Checked.bind_eq_ok_iff.2 ⟨_, hjoin, Checked.bind_eq_ok_iff.2 ⟨_, hleave, rfl⟩⟩

/-- An exchange that changes nothing ends the loop. -/
theorem loop_of_exchange {moved : Stage α} {e : Exchange α} (fuel : ℕ)
    (hmoved : iterate? par p s = .ok moved) (hstatus : moved.state.status.isFailure = false)
    (hexchange : exchange? par p moved.state.counted = .ok e) (hends : e.goesOn = false) :
    loop? par p (fuel + 1) s =
      .ok ⟨e.state, .event (.iteration s.iterations s.status) :: moved.trace ++ e.trace⟩ := by
  refine Checked.bind_eq_ok_iff.2 ⟨moved, hmoved, ?_⟩
  dsimp only
  rw [if_neg (by rw [hstatus]; exact Bool.false_ne_true)]
  refine Checked.bind_eq_ok_iff.2 ⟨e, hexchange, ?_⟩
  rw [hends]
  rfl

/-- After an exchange that changes something the loop goes on. -/
theorem loop_of_rest {moved rest : Stage α} {e : Exchange α} (fuel : ℕ)
    (hmoved : iterate? par p s = .ok moved) (hstatus : moved.state.status.isFailure = false)
    (hexchange : exchange? par p moved.state.counted = .ok e) (hgoesOn : e.goesOn = true)
    (hrest : loop? par p fuel e.state = .ok rest) :
    loop? par p (fuel + 1) s =
      .ok ⟨rest.state, .event (.iteration s.iterations s.status) :: moved.trace ++ e.trace ++
        rest.trace⟩ := by
  refine Checked.bind_eq_ok_iff.2 ⟨moved, hmoved, ?_⟩
  dsimp only
  rw [if_neg (by rw [hstatus]; exact Bool.false_ne_true)]
  refine Checked.bind_eq_ok_iff.2 ⟨e, hexchange, ?_⟩
  rw [hgoesOn]
  exact Checked.bind_eq_ok_iff.2 ⟨rest, hrest, rfl⟩

/-- A run from a start that was found ends where its loop ends. -/
theorem solve_of_loop {offer : Option (Solution α)} {stage last : Stage α} {value : α}
    (hfits : p.Fits) (hcheck : p.check par.zeroThreshold = .ok ())
    (hstage : initialise? par p offer (start par p).state = .ok stage)
    (hfeasible : stage.state.status.isFeasible = true)
    (hloop : loop? par p (par.maxIter - stage.state.iterations) stage.state = .ok last)
    (hvalue : p.objective? last.state.x = .ok value) :
    ∃ out sol, p.solve? par offer = .ok out ∧ out.result = .ok sol ∧
      sol.status = last.state.status ∧ sol.x = last.state.x ∧
      sol.multipliers = some last.state.multipliers := by
  have hrun : iterations? par p stage.state = .ok ⟨last.state, .note .started :: last.trace⟩ := by
    rw [iterations?, if_pos hfeasible, hloop]
    rfl
  have hsolution : solution? p last.state = .ok
      ⟨last.state.status, last.state.x, some last.state.multipliers, value,
        last.state.iterations⟩ :=
    Checked.bind_eq_ok_iff.2 ⟨value, hvalue, rfl⟩
  have hsolved : ∃ out, solveValid? par p offer = .ok out ∧ out.result = .ok _ :=
    ⟨_, Checked.bind_eq_ok_iff.2 ⟨stage, hstage, Checked.bind_eq_ok_iff.2 ⟨_, hrun,
      Checked.bind_eq_ok_iff.2 ⟨_, hsolution, rfl⟩⟩⟩, rfl⟩
  obtain ⟨out, hout, hresult⟩ := hsolved
  refine ⟨out, _, ?_, hresult, rfl, rfl, rfl⟩
  rw [QuadraticProgram.solve?, require, if_pos hfits, hcheck]
  exact hout

end States

/-! ## What a run remembers -/

variable {K : Type} [Field K] [LinearOrder K] [Exact K]
variable {par : Params K} {p : QuadraticProgram K} {s₀ s s' : State K}

/-- The state holds the factor that was computed from the quadratic term and, if any, the minimiser
that this factor leads to. Nothing is said of its point and of its working set. -/
structure Computed (par : Params K) (p : QuadraticProgram K) (s : State K) : Prop where
  cholesky : s.cholesky = (Cholesky.init par.zeroThreshold).compute p.q
  threshold : s.lu.threshold = par.zeroThreshold
  minimizer : ∀ m, s.minimizer = some m → s.cholesky.solveVec? p.c.data = .ok m

/-- The state of a run: next to what was computed it has a working set of the right size. -/
structure Prepared (par : Params K) (p : QuadraticProgram K) (s : State K) : Prop
    extends Computed par p s where
  count : s.working.count = p.mi

theorem Prepared.inherits (h : Prepared par p s) (hs : Inherits s s') : Prepared par p s' := by
  refine ⟨⟨hs.cholesky.trans h.cholesky, hs.threshold.trans h.threshold, fun m hm => ?_⟩,
    hs.count.trans h.count⟩
  rw [hs.cholesky]
  exact h.minimizer m (hs.minimizer ▸ hm)

theorem Prepared.shrunk (h : Prepared par p s) (hs : Shrunk s s') : Prepared par p s' :=
  h.inherits hs.inherits

theorem Prepared.unblocked (h : Prepared par p s) : Prepared par p { s with blocking := none } :=
  h.inherits ⟨rfl, rfl, rfl, rfl⟩

theorem Prepared.iterated {moved : Stage K} (h : Prepared par p s)
    (hs : iterate? par p s = .ok moved) : Prepared par p moved.state :=
  h.inherits (inherits_of_iterate hs)

theorem Prepared.exchanged {goesOn : Bool} (h : Prepared par p s)
    (hs : Exchanged par p s goesOn s') : Prepared par p s' :=
  h.inherits hs.inherits

theorem Prepared.solved {active : List ℕ} {attempt : Attempt K} (h : Prepared par p s)
    (hs : subproblem? p s active = .ok attempt) : Prepared par p { s with lu := attempt.lu } :=
  h.inherits ⟨rfl, rfl, rfl, threshold_subproblem hs⟩

theorem Prepared.counted (h : Prepared par p s) : Prepared par p s.counted :=
  h.inherits ⟨rfl, rfl, rfl, rfl⟩

theorem Prepared.reached (h : Prepared par p s₀) (hs : Reached par p s₀ s) : Prepared par p s :=
  h.inherits hs.inherits

/-- A run that ends at an optimum ends because there was nothing to exchange after its last
iteration. -/
theorem last_iteration (hs₀ : Prepared par p s₀) (h₀ : s₀.status ≠ .optimal)
    (hend : Ended par p s₀ s') (hoptimal : s'.status = .optimal) :
    ∃ s moved : State K, Prepared par p s ∧ Attempted par p s moved ∧
      moved.status.isFailure = false ∧ Exchanged par p moved.counted false s' := by
  cases hend with
  | limit reached => exact absurd hoptimal (status_of_reached h₀ reached)
  | @failed s moved reached iterated failure =>
    have hoptimal : moved.state.status = .optimal := hoptimal
    rw [hoptimal] at failure
    cases failure
  | finished reached iterated usable exchanged ends =>
    obtain ⟨s, hshrunk, hattempt⟩ := iterate_cases iterated
    have hexchanged := exchange_cases exchanged
    rw [ends] at hexchanged
    exact ⟨s, _, (hs₀.reached reached).unblocked.shrunk hshrunk, hattempt, usable, hexchanged⟩

/-- A start that is found prepares the run. -/
theorem prepared_initialise {offer : Option (Solution K)} {stage : Stage K}
    (h : initialise? par p offer (start par p).state = .ok stage)
    (hfeasible : stage.state.status.isFeasible = true) : Prepared par p stage.state := by
  obtain ⟨hcount, hcholesky, hminimizer, hlu⟩ := factor_of_initialise h hfeasible
  exact ⟨⟨hcholesky, hlu, hminimizer⟩, hcount⟩

section Factor

variable [IsStrictOrderedRing K] [ExactRoots K]

theorem factored_of_compute (hp : p.WellSized) (hthreshold : 0 ≤ par.zeroThreshold) {l : Mat K}
    (hl : ((Cholesky.init par.zeroThreshold).compute p.q).factor = some l) :
    Cholesky.Factored p.q l p.n p.n :=
  Cholesky.factored_compute hthreshold hp.q_rows hp.q_cols hl

theorem Computed.remembers (h : Computed par p s) (hp : p.WellSized) (hsymm : p.q.IsSymm)
    (hthreshold : 0 ≤ par.zeroThreshold) : Remembers p s := by
  have hfactor : Remembers p { s with minimizer := none } :=
    ⟨fun _ hl => factored_of_compute hp hthreshold (h.cholesky ▸ hl), fun _ hm => (nomatch hm),
      h.threshold ▸ hthreshold⟩
  refine ⟨hfactor.factor, fun m hm j hj => ?_, hfactor.threshold⟩
  rw [(hfactor.lhs_solveVec hp hsymm (h.minimizer m hm)).2 j hj]
  exact Mat.entry_data hp.c_cols hj

end Factor

end ActiveSet

end QuadProg
