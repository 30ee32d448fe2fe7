import Mathlib
import QuadProg.ActiveSet.Solve

/-!
# What each stage can do

One lemma for each stage of the method says which states it can lead to and what was decided on the
way. The invariants of a run are derived from these lemmas alone. Nothing is assumed about the
scalars.
-/

namespace QuadProg

namespace ActiveSet

variable {α : Type} [Scalar α]
variable {par : Params α} {p : QuadraticProgram α} {s : State α}

/-! ## Dropping constraints -/

/-- The state `s'` differs from `s` at most by a smaller working set, other multipliers and other
factors of the system solved last. -/
structure Shrunk (s s' : State α) : Prop where
  x : s'.x = s.x
  status : s'.status = s.status
  cholesky : s'.cholesky = s.cholesky
  minimizer : s'.minimizer = s.minimizer
  blocking : s'.blocking = s.blocking
  threshold : s'.lu.threshold = s.lu.threshold
  iterations : s'.iterations = s.iterations
  count : s'.working.count = s.working.count
  contains : ∀ i, s'.working.contains i = true → s.working.contains i = true

omit [Scalar α] in
theorem Shrunk.refl (s : State α) : Shrunk s s :=
  ⟨rfl, rfl, rfl, rfl, rfl, rfl, rfl, rfl, fun _ h => h⟩

omit [Scalar α] in
theorem Shrunk.trans {s₁ s₂ s₃ : State α} (h₁ : Shrunk s₁ s₂) (h₂ : Shrunk s₂ s₃) :
    Shrunk s₁ s₃ :=
  ⟨h₂.x.trans h₁.x, h₂.status.trans h₁.status, h₂.cholesky.trans h₁.cholesky,
    h₂.minimizer.trans h₁.minimizer, h₂.blocking.trans h₁.blocking,
    h₂.threshold.trans h₁.threshold, h₂.iterations.trans h₁.iterations, h₂.count.trans h₁.count,
    fun i hi => h₁.contains i (h₂.contains i hi)⟩

theorem shrunk_drop (s : State α) (me i : ℕ) : Shrunk s (s.drop me i) := by
  refine ⟨rfl, rfl, rfl, rfl, rfl, rfl, rfl, s.working.count_erase i, fun j hj => ?_⟩
  have hj : (s.working.erase i).contains j = true := hj
  rw [WorkingSet.contains_erase] at hj
  exact (Bool.and_eq_true_iff.1 hj).1

theorem shrunk_of_shrink {me : ℕ} {s' : State α} (h : s.shrink? me = .ok s') : Shrunk s s' := by
  obtain ⟨-, rfl⟩ := guarded_eq_ok_iff.1 h
  unfold State.shrink
  split
  · exact shrunk_drop s me _
  · exact Shrunk.refl s

theorem shrunk_of_trim {fuel : ℕ} {s' : State α} (h : trim? p fuel s = .ok s') : Shrunk s s' := by
  induction fuel generalizing s with
  | zero =>
    obtain rfl := Except.ok.inj h
    exact Shrunk.refl s
  | succ fuel ih =>
    unfold trim? at h
    split at h
    · obtain ⟨s₁, hshrink, h⟩ := Checked.bind_eq_ok_iff.1 h
      exact (shrunk_of_shrink hshrink).trans (ih h)
    · obtain rfl := Except.ok.inj h
      exact Shrunk.refl s

/-! ## Subproblems -/

section Threshold

variable {a b : Mat α} {active : List ℕ} {attempt : Attempt α}

theorem threshold_solveBySchur (h : solveBySchur? p s a b = .ok attempt) :
    attempt.lu.threshold = s.lu.threshold := by
  obtain ⟨w, -, h⟩ := Checked.bind_eq_ok_iff.1 h
  obtain ⟨schur, -, h⟩ := Checked.bind_eq_ok_iff.1 h
  obtain ⟨lu, hlu, h⟩ := Checked.bind_eq_ok_iff.1 h
  obtain ⟨-, rfl⟩ := guarded_eq_ok_iff.1 hlu
  split at h
  · obtain ⟨_, -, h⟩ := Checked.bind_eq_ok_iff.1 h
    obtain ⟨_, -, h⟩ := Checked.bind_eq_ok_iff.1 h
    obtain ⟨_, -, h⟩ := Checked.bind_eq_ok_iff.1 h
    obtain ⟨_, -, h⟩ := Checked.bind_eq_ok_iff.1 h
    obtain ⟨_, -, h⟩ := Checked.bind_eq_ok_iff.1 h
    rw [← Except.ok.inj h]
    rfl
  · rw [← Except.ok.inj h]
    rfl

theorem threshold_solveByKkt {lu : LU α} (h : solveByKkt? p lu a b = .ok attempt) :
    attempt.lu.threshold = lu.threshold := by
  obtain ⟨system, -, h⟩ := Checked.bind_eq_ok_iff.1 h
  obtain ⟨lu', hlu', h⟩ := Checked.bind_eq_ok_iff.1 h
  obtain ⟨-, rfl⟩ := guarded_eq_ok_iff.1 hlu'
  split at h
  · obtain ⟨_, -, h⟩ := Checked.bind_eq_ok_iff.1 h
    rw [← Except.ok.inj h]
    rfl
  · rw [← Except.ok.inj h]
    rfl

theorem threshold_subproblem (h : subproblem? p s active = .ok attempt) :
    attempt.lu.threshold = s.lu.threshold := by
  obtain ⟨a, -, h⟩ := Checked.bind_eq_ok_iff.1 h
  obtain ⟨b, -, h⟩ := Checked.bind_eq_ok_iff.1 h
  split at h
  · split at h
    · obtain ⟨x, -, h⟩ := Checked.bind_eq_ok_iff.1 h
      rw [← Except.ok.inj h]
    · obtain ⟨first, hfirst, h⟩ := Checked.bind_eq_ok_iff.1 h
      split at h
      · rw [← Except.ok.inj h]
        exact threshold_solveBySchur hfirst
      · rw [← threshold_solveBySchur hfirst]
        exact threshold_solveByKkt h
  · exact threshold_solveByKkt h

end Threshold

/-! ## A step towards a target -/

/-- A step has the multipliers of the target. Either the move is negligible and the point stays, or
the point moves as far as the stride goes. -/
theorem takeStep_cases {active : List ℕ} {t : Target α} {stage : Stage α}
    (h : takeStep? par p s active t = .ok stage) :
    let dx := Vec.addScaled (-1) s.x t.x
    let multipliers := spread p active t.multipliers s.multipliers
    s.x.size = t.x.size ∧
    (p.me ≤ s.multipliers.size ∧ ∀ i ∈ active, p.me + i < s.multipliers.size) ∧
    ((par.solution.isSmall s.x.norm dx.norm = true ∧
        stage.state = { s with status := .feasible, multipliers }) ∨
      par.solution.isSmall s.x.norm dx.norm = false ∧
        ∃ stride, stride? par p s.x dx dx.norm s.working.others = .ok stride ∧
          stage.state = { s with
            status := .approximate
            x := if 0 < stride.length then Vec.addScaled stride.length dx s.x else s.x
            blocking := stride.blocking
            multipliers }) := by
  obtain ⟨moved, hmove, h⟩ := Checked.bind_eq_ok_iff.1 h
  obtain ⟨s', hadopt, h⟩ := Checked.bind_eq_ok_iff.1 h
  obtain rfl := Except.ok.inj h
  obtain ⟨hcovers, rfl⟩ := guarded_eq_ok_iff.1 hadopt
  obtain ⟨dx, hdx, hmove⟩ := Checked.bind_eq_ok_iff.1 hmove
  obtain ⟨hsize, rfl⟩ := guarded_eq_ok_iff.1 hdx
  refine ⟨hsize, ?_⟩
  dsimp only at hmove
  split at hmove
  · next hsmall =>
    obtain rfl := Except.ok.inj hmove
    exact ⟨hcovers, Or.inl ⟨hsmall, rfl⟩⟩
  · next hsmall =>
    obtain ⟨stride, hstride, hmove⟩ := Checked.bind_eq_ok_iff.1 hmove
    have hsmall := Bool.eq_false_of_not_eq_true hsmall
    split at hmove
    · next hpos =>
      obtain ⟨x, hx, hmove⟩ := Checked.bind_eq_ok_iff.1 hmove
      obtain ⟨-, rfl⟩ := guarded_eq_ok_iff.1 hx
      obtain rfl := Except.ok.inj hmove
      exact ⟨hcovers, Or.inr ⟨hsmall, stride, hstride, by rw [if_pos hpos]; rfl⟩⟩
    · next hpos =>
      obtain ⟨x, hx, hmove⟩ := Checked.bind_eq_ok_iff.1 hmove
      obtain rfl := Except.ok.inj hx
      obtain rfl := Except.ok.inj hmove
      exact ⟨hcovers, Or.inr ⟨hsmall, stride, hstride, by rw [if_neg hpos]; rfl⟩⟩

/-- A step tells observers no more than the change of status. -/
theorem events_takeStep {active : List ℕ} {t : Target α} {stage : Stage α}
    (h : takeStep? par p s active t = .ok stage) :
    stage.trace.events = (Trace.transition s.status stage.state.status).events := by
  obtain ⟨moved, hmove, h⟩ := Checked.bind_eq_ok_iff.1 h
  obtain ⟨s', hadopt, h⟩ := Checked.bind_eq_ok_iff.1 h
  obtain rfl := Except.ok.inj h
  obtain ⟨-, rfl⟩ := guarded_eq_ok_iff.1 hadopt
  obtain ⟨dx, -, hmove⟩ := Checked.bind_eq_ok_iff.1 hmove
  dsimp only at hmove
  split at hmove
  · obtain rfl := Except.ok.inj hmove
    rfl
  · obtain ⟨stride, -, hmove⟩ := Checked.bind_eq_ok_iff.1 hmove
    split at hmove
    · obtain ⟨x, -, hmove⟩ := Checked.bind_eq_ok_iff.1 hmove
      obtain rfl := Except.ok.inj hmove
      rfl
    · obtain ⟨x, -, hmove⟩ := Checked.bind_eq_ok_iff.1 hmove
      obtain rfl := Except.ok.inj hmove
      rfl

/-! ## An iteration -/

/-- The way an iteration ended, after constraints were dropped until the state was `s`. -/
inductive Attempted (par : Params α) (p : QuadraticProgram α) (s : State α) : State α → Prop
  /-- The subproblem had a solution and a step was taken. -/
  | stepped (outcome : Attempt α) (target : Target α) (stage : Stage α)
      (solved : subproblem? p s s.working.members = .ok outcome)
      (found : outcome.target = some target)
      (step : takeStep? par p { s with lu := outcome.lu } s.working.members target = .ok stage) :
      Attempted par p s stage.state
  /-- The subproblem of the empty working set had no solution. -/
  | stuck (outcome : Attempt α) (feasible : Bool)
      (solved : subproblem? p s s.working.members = .ok outcome)
      (unsolvable : outcome.target = none) (empty : s.working.members = [])
      (test : isFeasible? par p s.x = .ok feasible) :
      Attempted par p s
        { s with lu := outcome.lu, status := if feasible then .feasible else .infeasible }
  /-- No more constraints may be dropped. -/
  | exhausted (outcome : Attempt α)
      (solved : subproblem? p s s.working.members = .ok outcome)
      (nonempty : s.working.members ≠ []) :
      Attempted par p s { s with lu := outcome.lu, status := .failed }

/-- The subproblem of the state `s` has no solution, and the state `s₁` has one constraint less. -/
structure Dropped (p : QuadraticProgram α) (s : State α) (outcome : Attempt α) (s₁ : State α) :
    Prop where
  solved : subproblem? p s s.working.members = .ok outcome
  unsolvable : outcome.target = none
  nonempty : s.working.members ≠ []
  shrink : State.shrink? { s with lu := outcome.lu } p.me = .ok s₁

theorem Dropped.shrunk {outcome : Attempt α} {s₁ : State α} (h : Dropped p s outcome s₁) :
    Shrunk s s₁ := by
  have hlu : Shrunk s { s with lu := outcome.lu } :=
    ⟨rfl, rfl, rfl, rfl, rfl, threshold_subproblem h.solved, rfl, rfl, fun _ h => h⟩
  exact hlu.trans (shrunk_of_shrink h.shrink)

/-- An iteration ends at once, or it goes on with one constraint less. It fails only when no
constraint may be dropped from a subproblem without a solution. Observers are told the change of
status only. -/
theorem attempt_step {retries : ℕ} {stage : Stage α} (h : attempt? par p retries s = .ok stage) :
    (Attempted par p s stage.state ∧
      stage.trace.events = (Trace.transition s.status stage.state.status).events ∧
      (stage.state.status = .failed → retries = 0 ∧
        ∃ outcome, subproblem? p s s.working.members = .ok outcome ∧ outcome.target = none)) ∨
      ∃ k outcome s₁ rest, retries = k + 1 ∧ Dropped p s outcome s₁ ∧
        attempt? par p k s₁ = .ok rest ∧ stage.state = rest.state ∧
        stage.trace.events = rest.trace.events := by
  unfold attempt? at h
  obtain ⟨outcome, hsolved, h⟩ := Checked.bind_eq_ok_iff.1 h
  dsimp only at h
  split at h
  · next target hfound =>
    refine Or.inl ⟨.stepped outcome target stage hsolved hfound h,
      events_takeStep (s := { s with lu := outcome.lu }) h, fun hfailed => ?_⟩
    obtain ⟨-, -, ⟨-, hstate⟩ | ⟨-, stride, -, hstate⟩⟩ := takeStep_cases h
    · rw [hstate] at hfailed
      cases hfailed
    · rw [hstate] at hfailed
      cases hfailed
  · next hnone =>
    split at h
    · next hempty =>
      obtain ⟨feasible, htest, h⟩ := Checked.bind_eq_ok_iff.1 h
      obtain rfl := Except.ok.inj h
      refine Or.inl ⟨.stuck outcome feasible hsolved hnone (List.isEmpty_iff.1 hempty) htest, rfl,
        fun hfailed => ?_⟩
      cases feasible with
      | true => cases hfailed
      | false => cases hfailed
    · next hnonempty =>
      have hmembers : s.working.members ≠ [] := fun hnil => hnonempty (List.isEmpty_iff.2 hnil)
      rcases retries with _ | k
      · obtain rfl := Except.ok.inj h
        exact Or.inl ⟨.exhausted outcome hsolved hmembers, rfl,
          fun _ => ⟨rfl, outcome, hsolved, hnone⟩⟩
      · obtain ⟨s₁, hshrink, h⟩ := Checked.bind_eq_ok_iff.1 h
        obtain ⟨rest, hrest, h⟩ := Checked.bind_eq_ok_iff.1 h
        obtain rfl := Except.ok.inj h
        exact Or.inr ⟨k, outcome, s₁, rest, rfl, ⟨hsolved, hnone, hmembers, hshrink⟩, hrest, rfl,
          rfl⟩

/-- What one more drop keeps holds where an iteration comes to its end. -/
theorem attempt_induction (P : State α → Prop)
    (hdrop : ∀ s outcome s₁, P s → Dropped p s outcome s₁ → P s₁) {retries : ℕ} {stage : Stage α}
    (hs : P s) (h : attempt? par p retries s = .ok stage) :
    ∃ s', P s' ∧ Shrunk s s' ∧ Attempted par p s' stage.state := by
  induction retries generalizing s stage with
  | zero =>
    rcases attempt_step h with ⟨hend, -⟩ | ⟨k, outcome, s₁, rest, hk, -⟩
    · exact ⟨s, hs, Shrunk.refl s, hend⟩
    · cases hk
  | succ retries ih =>
    rcases attempt_step h with ⟨hend, -⟩ | ⟨k, outcome, s₁, rest, hk, hdropped, hrest, hstate, -⟩
    · exact ⟨s, hs, Shrunk.refl s, hend⟩
    · obtain rfl : retries = k := Nat.succ.inj hk
      obtain ⟨s', hs', hshrunk, hend⟩ := ih (hdrop s outcome s₁ hs hdropped) hrest
      exact ⟨s', hs', hdropped.shrunk.trans hshrunk, hstate ▸ hend⟩

theorem attempt_cases {retries : ℕ} {stage : Stage α} (h : attempt? par p retries s = .ok stage) :
    ∃ s', Shrunk s s' ∧ Attempted par p s' stage.state := by
  obtain ⟨s', -, h⟩ := attempt_induction (fun _ => True) (fun _ _ _ _ _ => trivial) trivial h
  exact ⟨s', h⟩

theorem events_attempt {retries : ℕ} {stage : Stage α} (h : attempt? par p retries s = .ok stage) :
    stage.trace.events = (Trace.transition s.status stage.state.status).events := by
  induction retries generalizing s stage with
  | zero =>
    rcases attempt_step h with ⟨-, hevents, -⟩ | ⟨k, outcome, s₁, rest, hk, -⟩
    · exact hevents
    · cases hk
  | succ retries ih =>
    rcases attempt_step h with
      ⟨-, hevents, -⟩ | ⟨k, outcome, s₁, rest, hk, hdropped, hrest, hstate, hevents⟩
    · exact hevents
    · obtain rfl : retries = k := Nat.succ.inj hk
      rw [hevents, ih hrest, hdropped.shrunk.status, hstate]

/-! ## Changing the working set -/

/-- The outcome of an exchange: the run ends, an inequality joins, or one leaves. -/
inductive Exchanged (par : Params α) (p : QuadraticProgram α) (s : State α) : Bool → State α → Prop
  /-- There is nothing to change. -/
  | finished (settled : p.mi = 0 ∨ joining? par p s = .ok none ∧ s.CoversWorking p.me ∧
      leaving par p s = none) : Exchanged par p s false { s with status := .optimal }
  /-- The inequality `i` joins. -/
  | joined (i : ℕ) (joins : joining? par p s = .ok (some i)) :
      Exchanged par p s true { s with working := s.working.insert i, status := .approximate }
  /-- The inequality `i` leaves. -/
  | left (i : ℕ) (stays : joining? par p s = .ok none) (leaves : leaving par p s = some i) :
      Exchanged par p s true { s.drop p.me i with status := .approximate }

theorem Exchanged.status {goesOn : Bool} {s' : State α} (h : Exchanged par p s goesOn s') :
    s'.status = if goesOn then .approximate else .optimal := by
  cases h with
  | finished settled => rfl
  | joined i joins => rfl
  | left i stays leaves => rfl

theorem Exchanged.x {goesOn : Bool} {s' : State α} (h : Exchanged par p s goesOn s') :
    s'.x = s.x := by
  cases h with
  | finished settled => rfl
  | joined i joins => rfl
  | left i stays leaves => rfl

theorem exchange_cases {e : Exchange α} (h : exchange? par p s = .ok e) :
    Exchanged par p s e.goesOn e.state := by
  unfold exchange? at h
  split at h
  · next hmi =>
    obtain rfl := Except.ok.inj h
    exact .finished (Or.inl hmi)
  · obtain ⟨join, hjoin, h⟩ := Checked.bind_eq_ok_iff.1 h
    rcases join with _ | i
    · obtain ⟨leave, hleave, h⟩ := Checked.bind_eq_ok_iff.1 h
      obtain ⟨hcovers, hleave⟩ := guarded_eq_ok_iff.1 hleave
      rcases leave with _ | i
      · obtain rfl := Except.ok.inj h
        exact .finished (Or.inr ⟨hjoin, hcovers, hleave⟩)
      · obtain rfl := Except.ok.inj h
        exact .left i hjoin hleave
    · obtain ⟨working, hinsert, h⟩ := Checked.bind_eq_ok_iff.1 h
      obtain ⟨-, rfl⟩ := guarded_eq_ok_iff.1 hinsert
      obtain rfl := Except.ok.inj h
      exact .joined i hjoin

/-- An exchange tells observers no more than the change of status. -/
theorem events_exchange {e : Exchange α} (h : exchange? par p s = .ok e) :
    e.trace.events = (Trace.transition s.status e.state.status).events := by
  unfold exchange? at h
  split at h
  · obtain rfl := Except.ok.inj h
    rfl
  · obtain ⟨join, -, h⟩ := Checked.bind_eq_ok_iff.1 h
    rcases join with _ | i
    · obtain ⟨leave, -, h⟩ := Checked.bind_eq_ok_iff.1 h
      rcases leave with _ | i
      · obtain rfl := Except.ok.inj h
        rfl
      · obtain rfl := Except.ok.inj h
        rfl
    · obtain ⟨working, -, h⟩ := Checked.bind_eq_ok_iff.1 h
      obtain rfl := Except.ok.inj h
      rfl

/-! ## The start -/

/-- A search changes the point and the multipliers only, and it finds a point or fails. -/
theorem searchAnew_state {offer : Option (Vec α)} {found : Search α}
    (h : searchAnew? par p s offer = .ok found) :
    (∃ x multipliers, found.state = { s with x, multipliers }) ∧
      (found.status = .feasible ∨ found.status.isFailure = true) := by
  unfold searchAnew? at h
  split at h
  · obtain ⟨start, -, h⟩ := Checked.bind_eq_ok_iff.1 h
    dsimp only at h
    split at h
    · obtain ⟨-, -, h⟩ := Checked.bind_eq_ok_iff.1 h
      obtain rfl := Except.ok.inj h
      exact ⟨⟨_, _, rfl⟩, Or.inl rfl⟩
    · obtain rfl := Except.ok.inj h
      refine ⟨⟨_, _, rfl⟩, Or.inr ?_⟩
      dsimp only
      split
      · rfl
      · rfl
  · obtain rfl := Except.ok.inj h
    exact ⟨⟨_, _, rfl⟩, Or.inl rfl⟩

theorem search_state {offer : Option (Vec α)} {found : Search α}
    (h : search? par p s offer = .ok found) :
    (∃ x multipliers, found.state = { s with x, multipliers }) ∧
      (found.status = .feasible ∨ found.status.isFailure = true) := by
  unfold search? at h
  split at h
  · exact searchAnew_state h
  · obtain ⟨x, -, h⟩ := Checked.bind_eq_ok_iff.1 h
    obtain ⟨feasible, -, h⟩ := Checked.bind_eq_ok_iff.1 h
    split at h
    · obtain rfl := Except.ok.inj h
      exact ⟨⟨_, _, rfl⟩, Or.inl rfl⟩
    · obtain ⟨⟨x', l, hstate⟩, hstatus⟩ := searchAnew_state h
      exact ⟨⟨x', l, hstate⟩, hstatus⟩

theorem count_foldl_joinTight (ivs : List (ℕ × α)) (w : WorkingSet) :
    (ivs.foldl (joinTight par p) w).count = w.count := by
  induction ivs generalizing w with
  | nil => rfl
  | cons iv rest ih =>
    rw [List.foldl_cons, ih, joinTight]
    split
    · rfl
    · exact w.count_insert iv.1

/-- What joins is not told apart from its bound. -/
theorem contains_foldl_joinTight {ivs : List (ℕ × α)} {w : WorkingSet} {i : ℕ}
    (h : (ivs.foldl (joinTight par p) w).contains i = true) :
    w.contains i = true ∨ ∃ v, (i, v) ∈ ivs ∧ par.slack.differ (p.bound i) v = false := by
  induction ivs generalizing w with
  | nil => exact Or.inl h
  | cons iv rest ih =>
    rcases ih h with hw | ⟨v, hv, hsame⟩
    · unfold joinTight at hw
      split at hw
      · exact Or.inl hw
      · next hsame =>
        rw [WorkingSet.contains_insert, Bool.or_eq_true, Bool.and_eq_true] at hw
        rcases hw with hw | ⟨hi, -⟩
        · exact Or.inl hw
        · obtain rfl := of_decide_eq_true hi
          exact Or.inr ⟨iv.2, List.mem_cons_self, Bool.eq_false_of_not_eq_true hsame⟩
    · exact Or.inr ⟨v, List.mem_cons_of_mem _ hv, hsame⟩

theorem joinTight_cases {s' : State α} (h : joinTight? par p s = .ok s') :
    ∃ working, s' = { s with working } ∧ ((p.mi = 0 ∧ working = s.working) ∨
      ∃ values, p.bodies? s.working.others s.x = .ok values ∧
        working = (s.working.others.zip values.toList).foldl (joinTight par p) s.working) := by
  unfold joinTight? at h
  split at h
  · next hmi =>
    obtain rfl := Except.ok.inj h
    exact ⟨s.working, rfl, Or.inl ⟨hmi, rfl⟩⟩
  · obtain ⟨values, hvalues, h⟩ := Checked.bind_eq_ok_iff.1 h
    obtain ⟨-, rfl⟩ := guarded_eq_ok_iff.1 h
    exact ⟨_, rfl, Or.inr ⟨values, hvalues, rfl⟩⟩

/-- The tight inequalities join, some are dropped again, and the minimiser is remembered. -/
theorem prepare_cases {s' : State α} (h : prepare? par p s = .ok s') :
    ∃ s₁ s₂ multipliers minimizer, joinTight? par p s = .ok s₁ ∧ Shrunk s₁ s₂ ∧
      s' = { s₂ with multipliers, minimizer } ∧
      ∀ x, minimizer = some x → s₂.cholesky.solveVec? p.c.data = .ok x := by
  obtain ⟨s₁, hjoin, h⟩ := Checked.bind_eq_ok_iff.1 h
  obtain ⟨s₂, htrim, h⟩ := Checked.bind_eq_ok_iff.1 h
  obtain ⟨s₃, hclear, h⟩ := Checked.bind_eq_ok_iff.1 h
  obtain ⟨-, rfl⟩ := guarded_eq_ok_iff.1 hclear
  unfold cacheMinimizer? at h
  split at h
  · obtain ⟨x, hx, h⟩ := Checked.bind_eq_ok_iff.1 h
    obtain rfl := Except.ok.inj h
    refine ⟨s₁, s₂, _, some x, hjoin, shrunk_of_trim htrim, rfl, fun y hy => ?_⟩
    obtain rfl := Option.some.inj hy
    exact hx
  · obtain rfl := Except.ok.inj h
    exact ⟨s₁, s₂, _, none, hjoin, shrunk_of_trim htrim, rfl, fun y hy => by cases hy⟩

/-- Two states with the same point. Their working sets and what was computed may differ. -/
structure SamePoint (s s' : State α) : Prop where
  x : s'.x = s.x
  status : s'.status = s.status
  blocking : s'.blocking = s.blocking
  iterations : s'.iterations = s.iterations

/-- The preparation of a start leaves its point as it is. -/
theorem samePoint_of_prepare {s' : State α} (h : prepare? par p s = .ok s') : SamePoint s s' := by
  obtain ⟨s₁, s₂, multipliers, minimizer, hjoin, hshrunk, rfl, -⟩ := prepare_cases h
  obtain ⟨working, rfl, -⟩ := joinTight_cases hjoin
  exact ⟨hshrunk.x, hshrunk.status, hshrunk.blocking, hshrunk.iterations⟩

/-- The search finds a point, which is prepared, or its failure is taken over. -/
theorem initialise_step {offer : Option (Solution α)} {stage : Stage α}
    (h : initialise? par p offer s = .ok stage) :
    ∃ found, search? par p { s with
        cholesky := s.cholesky.compute p.q, working := s.working.clear } (usableOffer p offer) =
          .ok found ∧
      ((found.status = .feasible ∧ ∃ s',
          prepare? par p { found.state with status := .feasible } = .ok s' ∧
          stage = ⟨s', found.trace ++ Trace.transition found.state.status .feasible ++
            [.note (.initialSet s'.working)]⟩) ∨
        found.status.isFailure = true ∧
          stage = ⟨{ found.state with x := p.origin, status := found.status },
            found.trace ++ Trace.transition found.state.status found.status⟩) := by
  obtain ⟨cholesky, hcholesky, h⟩ := Checked.bind_eq_ok_iff.1 h
  obtain ⟨-, rfl⟩ := guarded_eq_ok_iff.1 hcholesky
  obtain ⟨found, hfound, h⟩ := Checked.bind_eq_ok_iff.1 h
  refine ⟨found, hfound, ?_⟩
  dsimp only at h
  split at h
  · next hfeasible =>
    obtain ⟨s', hprepare, h⟩ := Checked.bind_eq_ok_iff.1 h
    exact Or.inl ⟨hfeasible, s', hprepare, (Except.ok.inj h).symm⟩
  · next hfeasible =>
    exact Or.inr ⟨(search_state hfound).2.resolve_left hfeasible, (Except.ok.inj h).symm⟩

theorem initialise_cases {offer : Option (Solution α)} {stage : Stage α}
    (h : initialise? par p offer s = .ok stage) :
    ∃ found, search? par p { s with
        cholesky := s.cholesky.compute p.q, working := s.working.clear } (usableOffer p offer) =
          .ok found ∧
      ((found.status = .feasible ∧
          prepare? par p { found.state with status := .feasible } = .ok stage.state) ∨
        stage.state.status.isFailure = true ∧ stage.state.x = p.origin ∧
          stage.state.status = found.status) := by
  obtain ⟨found, hfound, ⟨hfeasible, s', hprepare, rfl⟩ | ⟨hfailure, rfl⟩⟩ := initialise_step h
  · exact ⟨found, hfound, Or.inl ⟨hfeasible, hprepare⟩⟩
  · exact ⟨found, hfound, Or.inr ⟨hfailure, rfl, rfl⟩⟩

theorem status_initialise {offer : Option (Solution α)} {stage : Stage α}
    (h : initialise? par p offer s = .ok stage) (hfeasible : stage.state.status.isFeasible = true) :
    stage.state.status = .feasible ∧ stage.state.iterations = s.iterations := by
  obtain ⟨found, hsearch, ⟨-, hprepare⟩ | ⟨hfailure, -⟩⟩ := initialise_cases h
  · obtain ⟨⟨x, l, hfound⟩, -⟩ := search_state hsearch
    have hsame := samePoint_of_prepare hprepare
    refine ⟨hsame.status, hsame.iterations.trans ?_⟩
    rw [hfound]
  · rw [Status.isFeasible_of_isFailure hfailure] at hfeasible
    cases hfeasible

theorem iterations_initialise {offer : Option (Solution α)} {stage : Stage α}
    (h : initialise? par p offer s = .ok stage) : stage.state.iterations = s.iterations := by
  obtain ⟨found, hfound, ⟨-, s', hprepare, rfl⟩ | ⟨-, rfl⟩⟩ := initialise_step h
  · obtain ⟨⟨x, l, hstate⟩, -⟩ := search_state hfound
    exact (samePoint_of_prepare hprepare).iterations.trans (by rw [hstate])
  · obtain ⟨⟨x, l, hstate⟩, -⟩ := search_state hfound
    show found.state.iterations = s.iterations
    rw [hstate]

end ActiveSet

end QuadProg
