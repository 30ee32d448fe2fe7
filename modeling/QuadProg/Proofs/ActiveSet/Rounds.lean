import QuadProg.Proofs.ActiveSet.Initialise
import QuadProg.Proofs.Lossy
import QuadProg.Proofs.Trace

/-!
# What a run of the active-set method tells

Observers are told of the check of the program, of the run of the simplex method if one is made to
find a starting point, and then of the rounds of the method. A round announces an iteration and
tells the changes of status that the iteration and the exchange after it make. `Rounds` follows the
loop from one round to the next; by induction along it, the iterations are numbered from zero, and
the changes of status form a chain that stops at the first verdict. Nothing is assumed about the
scalars.
-/

namespace QuadProg

namespace ActiveSet

variable {α : Type} [Scalar α]
variable {par : Params α} {p : QuadraticProgram α} {s s' : State α}

/-! ## Exchanges -/

/-- An exchange changes the membership of one inequality and goes on, or it changes none and the run
ends at an optimum. -/
inductive Flips (s : State α) (e : Exchange α) : Prop
  | one (i : ℕ) (lt : i < s.working.count)
    (contains : ∀ j, e.state.working.contains j =
      if j = i then !s.working.contains j else s.working.contains j)
    (goesOn : e.goesOn = true) (status : e.state.status = .approximate)
  | none (working : e.state.working = s.working) (goesOn : e.goesOn = false)
    (status : e.state.status = .optimal)

theorem mem_others_of_mostViolated {join : Option ℕ} (h : mostViolated? par p s = .ok join) {i : ℕ}
    (hi : join = some i) : i ∈ s.working.others := by
  obtain ⟨slacks, -, h⟩ := Checked.bind_eq_ok_iff.1 h
  obtain rfl := Except.ok.inj h
  obtain ⟨k, hk, rfl⟩ := Option.map_eq_some_iff.1 hi
  exact getD_mem (List.mem_range.1 (Selection.mem_of_choice_least hk).1)

/-- An inequality that joins is outside of the working set. -/
theorem mem_others_of_joining {i : ℕ} (h : joining? par p s = .ok (some i)) :
    i ∈ s.working.others := by
  unfold joining? at h
  split at h
  · obtain ⟨member, hmember, h⟩ := Checked.bind_eq_ok_iff.1 h
    obtain ⟨hlt, rfl⟩ := guarded_eq_ok_iff.1 hmember
    split at h
    · exact mem_others_of_mostViolated h rfl
    · next hnot =>
      obtain rfl := Option.some.inj (Except.ok.inj h)
      exact WorkingSet.mem_others.2 ⟨hlt, Bool.eq_false_of_not_eq_true hnot⟩
  · exact mem_others_of_mostViolated h rfl

theorem flips_of_exchange {e : Exchange α} (h : exchange? par p s = .ok e) : Flips s e := by
  have hcases := exchange_cases h
  generalize he : e.goesOn = goesOn at hcases
  generalize hs : e.state = s' at hcases
  cases hcases with
  | finished settled => exact .none (by rw [hs]) he (by rw [hs])
  | joined i joins =>
    obtain ⟨hlt, hnot⟩ := WorkingSet.mem_others.1 (mem_others_of_joining joins)
    refine .one i hlt (fun j => ?_) he (by rw [hs])
    rw [hs, WorkingSet.contains_insert]
    by_cases hij : j = i
    · subst hij
      simp [hlt, hnot]
    · simp [hij, Ne.symm hij]
  | left i stays leaves =>
    have hmember := WorkingSet.mem_members.1 (Selection.mem_of_choice_least leaves).1
    refine .one i (WorkingSet.lt_count_of_contains hmember) (fun j => ?_) he (by rw [hs])
    rw [hs]
    show (s.working.erase i).contains j = _
    rw [WorkingSet.contains_erase]
    by_cases hij : j = i
    · subst hij
      simp [hmember]
    · simp [hij, Ne.symm hij]

/-! ## The rounds of the loop -/

/-- The loop goes from the state `s` with at most `fuel` iterations to the state `s'`, and tells
`events`. -/
inductive Rounds (par : Params α) (p : QuadraticProgram α) :
    ℕ → State α → List (Event α) → State α → Prop
  /-- The limit of iterations is reached. -/
  | limit {s : State α} : Rounds par p 0 s [] s
  /-- The iteration fails. -/
  | failed {fuel : ℕ} {s : State α} {moved : Stage α} (iterated : iterate? par p s = .ok moved)
    (failure : moved.state.status = .infeasible ∨ moved.state.status = .failed) :
    Rounds par p (fuel + 1) s (.iteration s.iterations s.status ::
      (Trace.transition s.status moved.state.status).events) moved.state.counted
  /-- There is nothing to exchange. -/
  | finished {fuel : ℕ} {s : State α} {moved : Stage α} {e : Exchange α}
    (iterated : iterate? par p s = .ok moved)
    (usable : moved.state.status = .feasible ∨ moved.state.status = .approximate)
    (exchanged : exchange? par p moved.state.counted = .ok e) (ends : e.goesOn = false) :
    Rounds par p (fuel + 1) s (.iteration s.iterations s.status ::
      (Trace.transition s.status moved.state.status).events ++
      (Trace.transition moved.state.status e.state.status).events) e.state
  /-- The working set is changed, and another round follows. -/
  | next {fuel : ℕ} {s s' : State α} {moved : Stage α} {e : Exchange α} {events : List (Event α)}
    (iterated : iterate? par p s = .ok moved)
    (usable : moved.state.status = .feasible ∨ moved.state.status = .approximate)
    (exchanged : exchange? par p moved.state.counted = .ok e) (goesOn : e.goesOn = true)
    (rest : Rounds par p fuel e.state events s') :
    Rounds par p (fuel + 1) s (.iteration s.iterations s.status ::
      (Trace.transition s.status moved.state.status).events ++
      (Trace.transition moved.state.status e.state.status).events ++ events) s'

theorem rounds_of_loop {fuel : ℕ} {stage : Stage α} (h : loop? par p fuel s = .ok stage) :
    Rounds par p fuel s stage.trace.events stage.state := by
  induction fuel generalizing s stage with
  | zero =>
    obtain rfl := Except.ok.inj h
    exact .limit
  | succ fuel ih =>
    obtain ⟨moved, hiterate, hround⟩ := loop_cases h
    dsimp only at hround
    rw [events_attempt hiterate] at hround
    obtain ⟨s₁, -, hattempt⟩ := iterate_cases hiterate
    rcases hround with ⟨hfailure, hstate, hevents⟩ | ⟨husable, e, hexchange, hround⟩
    · rw [hstate, hevents]
      refine .failed hiterate (hattempt.status.resolve_left fun h => ?_)
      rcases h with h | h <;> rw [h] at hfailure <;> cases hfailure
    · have husable : moved.state.status = .feasible ∨ moved.state.status = .approximate := by
        refine hattempt.status.resolve_right fun h => ?_
        rcases h with h | h <;> rw [h] at husable <;> cases husable
      rw [events_exchange hexchange] at hround
      rcases hround with ⟨hends, hstate, hevents⟩ | ⟨hgoesOn, rest, hrest, hstate, hevents⟩
      · rw [hstate, hevents]
        exact .finished hiterate husable hexchange hends
      · rw [hstate, hevents]
        exact .next hiterate husable hexchange hgoesOn (ih hrest)

variable {fuel : ℕ} {events : List (Event α)}

/-- The status with which the iteration `k` is announced. -/
def statusBefore (k : ℕ) : Status := if k = 0 then .feasible else .approximate

theorem Rounds.leads (h : Rounds par p fuel s events s') :
    Trace.Leads s.status events s'.status := by
  have hround : ∀ (count : ℕ) (source target : Status), Trace.Leads source
      (.iteration count source :: (Trace.transition source target : Trace α).events) target :=
    fun _ _ _ => ⟨rfl, Trace.leads_transition _ _⟩
  induction h with
  | limit => rfl
  | failed _ _ => exact hround _ _ _
  | finished _ _ _ _ => exact (hround _ _ _).append (Trace.leads_transition _ _)
  | next _ _ _ _ _ ih => exact ((hround _ _ _).append (Trace.leads_transition _ _)).append ih

theorem Rounds.pivots (h : Rounds par p fuel s events s') : Trace.pivots events = [] := by
  induction h with
  | limit => rfl
  | failed _ _ => simp
  | finished _ _ _ _ => simp
  | next _ _ _ _ _ ih => simp [ih]

/-- A change of status is told by an iteration, or by the exchange after one that did not fail. -/
theorem Rounds.source (h : Rounds par p fuel s events s')
    (hs : s.status = .feasible ∨ s.status = .approximate) {source target : Status}
    (hmem : .transition source target ∈ events) : source = .feasible ∨ source = .approximate := by
  have htold : ∀ {source' target' : Status}, source' = .feasible ∨ source' = .approximate →
      .transition source target ∈ (Trace.transition source' target' : Trace α).events →
      source = .feasible ∨ source = .approximate := by
    intro source' target' hsource' hmem
    rwa [(Trace.eq_of_transition_mem hmem).1]
  induction h with
  | limit => cases hmem
  | failed _ _ => exact htold hs (by simpa using hmem)
  | finished _ usable _ _ =>
    simp only [List.cons_append, List.mem_cons, reduceCtorEq, List.mem_append, false_or] at hmem
    exact hmem.elim (htold hs) (htold usable)
  | next _ usable exchanged goesOn _ ih =>
    simp only [List.cons_append, List.mem_cons, reduceCtorEq, List.mem_append, false_or] at hmem
    refine hmem.elim (fun h => h.elim (htold hs) (htold usable)) (ih (Or.inr ?_))
    rw [(exchange_cases exchanged).status, if_pos goesOn]

/-- The iterations of the loop are announced in order, with the status that their number calls for,
and without a verdict the loop has come to its limit. -/
theorem Rounds.count (h : Rounds par p fuel s events s')
    (hs : s.status = statusBefore s.iterations) :
    ∃ k ≤ fuel, s'.iterations = s.iterations + k ∧
      Trace.iterations events =
        (List.range' s.iterations k).map (fun k => (k, statusBefore k)) ∧
      ((s'.status = .optimal ∨ s'.status = .infeasible ∨ s'.status = .failed) ∨
        k = fuel ∧ s'.status = statusBefore s'.iterations) := by
  induction h with
  | limit => exact ⟨0, le_rfl, rfl, rfl, Or.inr ⟨rfl, hs⟩⟩
  | @failed fuel s moved iterated failure =>
    refine ⟨1, by omega, ?_, by simp [hs], Or.inl (Or.inr failure)⟩
    exact congrArg (· + 1) (iterations_of_iterate iterated)
  | @finished fuel s moved e iterated usable exchanged ends =>
    have hexchange := exchange_cases exchanged
    refine ⟨1, by omega, ?_, by simp [hs], Or.inl (Or.inl ?_)⟩
    · exact hexchange.iterations.trans (congrArg (· + 1) (iterations_of_iterate iterated))
    · rw [hexchange.status, ends]
      rfl
  | @next fuel s s' moved e events iterated usable exchanged goesOn rest ih =>
    have hexchange := exchange_cases exchanged
    have hcount : e.state.iterations = s.iterations + 1 :=
      hexchange.iterations.trans (congrArg (· + 1) (iterations_of_iterate iterated))
    -- An exchange that goes on sets the status that all iterations but the first start with.
    have hstatus : e.state.status = statusBefore e.state.iterations := by
      rw [hexchange.status, if_pos goesOn, hcount]
      rfl
    obtain ⟨k, hk, htotal, hnumbers, hend⟩ := ih hstatus
    refine ⟨k + 1, by omega, by omega, ?_, hend.imp_right fun h => ⟨by omega, h.2⟩⟩
    simp [hnumbers, hcount, hs, List.range'_succ]

/-! ## The search for a start -/

/-- What a search tells is the run of the simplex method, if there is one. -/
structure SearchTold (par : Params α) (p : QuadraticProgram α) (offer : Option (Vec α))
    (events : List (Event α)) : Prop where
  needed : NeedsSearch par p offer →
    ∃ t, startTableau? p offer = .ok t ∧ events = (t.solve par).2.events
  spared : ¬ NeedsSearch par p offer → events = []

theorem searchTold_of_searchAnew {offer : Option (Vec α)} {found : Search α}
    (hoffer : ∀ x ∈ offer, isFeasible? par p x = .ok false)
    (h : searchAnew? par p s offer = .ok found) :
    SearchTold par p offer found.trace.events := by
  unfold searchAnew? at h
  split at h
  · next hconstrained =>
    refine ⟨fun _ => ?_, fun hnot => absurd ⟨hconstrained, hoffer⟩ hnot⟩
    obtain ⟨t, ht, h⟩ := Checked.bind_eq_ok_iff.1 h
    refine ⟨t, ht, ?_⟩
    dsimp only at h
    split at h
    · obtain ⟨-, -, h⟩ := Checked.bind_eq_ok_iff.1 h
      obtain rfl := Except.ok.inj h
      rfl
    · obtain rfl := Except.ok.inj h
      simp
  · next hfree =>
    obtain rfl := Except.ok.inj h
    exact ⟨fun hneeded => absurd hneeded.1 hfree, fun _ => rfl⟩

theorem searchTold_of_search {offer : Option (Vec α)} {found : Search α}
    (h : search? par p s offer = .ok found) : SearchTold par p offer found.trace.events := by
  unfold search? at h
  split at h
  · exact searchTold_of_searchAnew (fun _ hx => nomatch hx) h
  · next k =>
    obtain ⟨x, hx, h⟩ := Checked.bind_eq_ok_iff.1 h
    obtain ⟨-, rfl⟩ := guarded_eq_ok_iff.1 hx
    obtain ⟨accepted, haccepted, h⟩ := Checked.bind_eq_ok_iff.1 h
    split at h
    · next htrue =>
      obtain rfl := Except.ok.inj h
      refine ⟨fun hneeded => ?_, fun _ => rfl⟩
      have hrejected := hneeded.2 k rfl
      rw [haccepted, htrue] at hrejected
      cases hrejected
    · next hfalse =>
      refine searchTold_of_searchAnew (fun y hy => ?_) h
      obtain rfl := Option.some.inj hy
      rw [haccepted, Bool.eq_false_of_not_eq_true hfalse]

theorem status_of_initialise {offer : Option (Solution α)} {stage : Stage α}
    (h : initialise? par p offer s = .ok stage) (hnone : stage.state.status.isFeasible = false) :
    stage.state.status = .infeasible ∨ stage.state.status = .failed := by
  obtain ⟨found, hfound, ⟨-, hprepare⟩ | ⟨hfailure, -, hstatus⟩⟩ := initialise_cases h
  · rw [(samePoint_of_prepare hprepare).status] at hnone
    cases hnone
  · have hne : found.status ≠ .feasible := fun hfeasible => by
      rw [hstatus, hfeasible] at hfailure
      cases hfailure
    obtain ⟨t, -, -, hkind⟩ := search_fails hfound hne
    rw [hstatus, hkind]
    split
    · exact Or.inr rfl
    · exact Or.inl rfl

theorem events_initialise {offer : Option (Solution α)} {stage : Stage α}
    (h : initialise? par p offer s = .ok stage) :
    ∃ search, SearchTold par p (usableOffer p offer) search ∧ stage.trace.events =
      search ++ (Trace.transition s.status stage.state.status).events := by
  obtain ⟨found, hfound, hend⟩ := initialise_step h
  obtain ⟨⟨x, l, hstate⟩, -⟩ := search_state hfound
  have hstatus : found.state.status = s.status := by rw [hstate]
  refine ⟨found.trace.events, searchTold_of_search hfound, ?_⟩
  rcases hend with ⟨-, s', hprepare, rfl⟩ | ⟨-, rfl⟩
  · simp [hstatus, (samePoint_of_prepare hprepare).status]
  · simp [hstatus]

/-! ## Runs -/

omit [Scalar α] in
theorem events_closing (status : Status) : (closing status : Trace α).events = [] := by
  unfold closing
  split
  · rfl
  · split <;> rfl

/-- How a run of the method can end. -/
structure Concluded (par : Params α) (sol : Solution α) : Prop where
  iterations_le : sol.iterations ≤ par.maxIter
  status : sol.status = .optimal ∨ sol.status = .infeasible ∨ sol.status = .failed ∨
    sol.status = .approximate ∨ sol.status = .feasible
  /-- The limit of iterations was reached after at least one of them. -/
  approximate : sol.status = .approximate → sol.iterations = par.maxIter ∧ 1 ≤ par.maxIter
  /-- No iteration was allowed. -/
  feasible : sol.status = .feasible → par.maxIter = 0

/-- What the method itself tells of a run on a valid program that ends with the solution `sol`. -/
structure Told (sol : Solution α) (own : List (Event α)) : Prop where
  leads : Trace.Leads .valid own sol.status
  /-- Verdicts are final. -/
  source : ∀ source target, .transition source target ∈ own →
    source ≠ .optimal ∧ source ≠ .infeasible ∧ source ≠ .failed
  iterations : Trace.iterations own =
    (List.range sol.iterations).map fun k => (k, if k = 0 then .feasible else .approximate)
  pivots : Trace.pivots own = []

theorem Rounds.concluded (h : Rounds par p par.maxIter s events s') (hstatus : s.status = .feasible)
    (hcount : s.iterations = 0) (value : α) :
    Concluded par ⟨s'.status, s'.x, some s'.multipliers, value, s'.iterations⟩ := by
  obtain ⟨k, hk, htotal, -, hend⟩ := h.count (by rw [hstatus, hcount]; rfl)
  rw [hcount, Nat.zero_add] at htotal
  rcases hend with hverdict | ⟨rfl, hlimit⟩
  · refine ⟨htotal ▸ hk, ?_, fun h => ?_, fun h => ?_⟩
    · rcases hverdict with h | h | h <;> simp [h]
    · simp [show s'.status = .approximate from h] at hverdict
    · simp [show s'.status = .feasible from h] at hverdict
  · rw [htotal, statusBefore] at hlimit
    refine ⟨htotal.le, ?_, fun h => ⟨htotal, ?_⟩, fun h => ?_⟩
    · rw [hlimit]
      split <;> simp
    · by_contra hzero
      rw [if_pos (by omega)] at hlimit
      cases hlimit.symm.trans h
    · by_contra hpos
      rw [if_neg hpos] at hlimit
      cases hlimit.symm.trans h

theorem Rounds.told (h : Rounds par p fuel s events s') (hstatus : s.status = .feasible)
    (hcount : s.iterations = 0) (value : α) :
    Told ⟨s'.status, s'.x, some s'.multipliers, value, s'.iterations⟩
      ((Trace.transition .valid s.status).events ++ events) := by
  obtain ⟨k, -, htotal, hnumbers, -⟩ := h.count (by rw [hstatus, hcount]; rfl)
  rw [hcount, Nat.zero_add] at htotal
  constructor
  case leads => exact (Trace.leads_transition _ _).append h.leads
  case source =>
    intro source target hmem
    rcases List.mem_append.1 hmem with hmem | hmem
    · obtain rfl := (Trace.eq_of_transition_mem hmem).1
      simp
    · rcases h.source (Or.inl hstatus) hmem with rfl | rfl <;> simp
  case iterations =>
    rw [Trace.iterations_append, Trace.iterations_transition, hnumbers, hcount, htotal,
      List.range_eq_range']
    rfl
  case pivots => simp [h.pivots]

omit [Scalar α] in
/-- Without a starting point the state of the search is the end of the run. -/
theorem concluded_of_failure (hstatus : s.status = .infeasible ∨ s.status = .failed)
    (hcount : s.iterations = 0) (value : α) :
    Concluded par ⟨s.status, s.x, some s.multipliers, value, s.iterations⟩ := by
  refine ⟨hcount ▸ Nat.zero_le _, Or.inr (hstatus.imp_right Or.inl), fun h => ?_, fun h => ?_⟩
  · simp [show s.status = .approximate from h] at hstatus
  · simp [show s.status = .feasible from h] at hstatus

omit [Scalar α] in
theorem told_of_failure (hcount : s.iterations = 0) (value : α) :
    Told ⟨s.status, s.x, some s.multipliers, value, s.iterations⟩
      (Trace.transition .valid s.status).events := by
  refine ⟨Trace.leads_transition _ _, fun source target hmem => ?_, ?_, Trace.pivots_transition _ _⟩
  · obtain rfl := (Trace.eq_of_transition_mem hmem).1
    simp
  · rw [Trace.iterations_transition, hcount]
    rfl

end ActiveSet

namespace QuadraticProgram

open ActiveSet

variable {α : Type} [Scalar α]

/-- The events of a run, over any scalars. A program that is rejected tells nothing. Otherwise the
program is found valid, then the simplex method tells of its run if the search for a start needs it,
and then the method tells of its rounds. An exchange changes the membership of one inequality or
ends the run. -/
theorem solve_told (par : Params α) (p : QuadraticProgram α) (offer : Option (Solution α))
    {out : Outcome α} (h : p.solve? par offer = .ok out) :
    (∀ d, out.result = .error d → out.trace.events = []) ∧
    (∀ sol, out.result = .ok sol → Concluded par sol ∧
      (∃ stage, initialise? par p offer (start par p).state = .ok stage ∧
        (stage.state.status.isFailure = true →
          sol.status = stage.state.status ∧ sol.iterations = 0)) ∧
      ∃ search own, out.trace.events = .transition .unexplored .valid :: (search ++ own) ∧
        SearchTold par p (usableOffer p offer) search ∧ Told sol own) ∧
    ∀ s e, exchange? par p s = .ok e → Flips s e := by
  refine ⟨?_, ?_, fun s e => flips_of_exchange⟩
  · intro d hd
    rcases solve_step h with ⟨d', rfl⟩ | ⟨-, stage, last, value, -, -, rfl⟩
    · unfold reject
      dsimp only
      split <;> rfl
    · cases hd
  · intro sol hsol
    rcases solve_step h with ⟨d', rfl⟩ | ⟨-, stage, last, value, hstage, hlast, rfl⟩
    · cases hsol
    obtain rfl := Except.ok.inj hsol
    have hzero : stage.state.iterations = 0 := iterations_initialise hstage
    obtain ⟨search, hsearch, hevents⟩ := events_initialise hstage
    have hopening : (start par p).trace.events = [.transition .unexplored .valid] := rfl
    have hvalid : (start par p).state.status = .valid := rfl
    rw [hvalid] at hevents
    rcases iterations_cases hlast with ⟨hfeasible, looped, hloop, hstate, hlooped⟩ | ⟨hnone, rfl⟩
    · have hstatus := (status_initialise hstage hfeasible).1
      have hrounds := rounds_of_loop hloop
      rw [← hstate, hzero, Nat.sub_zero] at hrounds
      refine ⟨hrounds.concluded hstatus hzero value, ⟨stage, hstage, fun hfailure => ?_⟩,
        search, _, ?_, hsearch, hrounds.told hstatus hzero value⟩
      · rw [hstatus] at hfailure
        cases hfailure
      · simp [hopening, hevents, hlooped, events_closing]
    · refine ⟨concluded_of_failure (status_of_initialise hstage hnone) hzero value,
        ⟨stage, hstage, fun _ => ⟨rfl, hzero⟩⟩, search, _, ?_, hsearch,
        told_of_failure hzero value⟩
      simp [hopening, hevents, events_closing]

/-- Minimise `x² / 2 - 2 x` subject to `x ≤ 1` and to a second row whose coefficient is no number.
-/
def hazySample : QuadraticProgram Lossy :=
  ofData (Lossy.cell (.num 1)) (Lossy.cell (.num 2)) none none
    (some (Lossy.column (.num 1) .nan)) (some (Lossy.column (.num 1) (.num 1)))

/-- The simplex method finds a start, the first iteration has its step limited by the first row, and
the second one stays there. -/
theorem solve_told_hazySample :
    ∃ out sol t own, hazySample.solve? .standard none = .ok out ∧ out.result = .ok sol ∧
      sol.status = .optimal ∧ sol.iterations = 2 ∧ Concluded .standard sol ∧
      startTableau? hazySample none = .ok t ∧ Told sol own ∧
      out.trace.events =
        .transition .unexplored .valid :: ((t.solve .standard).2.events ++ own) := by
  have hrun : (hazySample.solve? .standard none).map
      (fun out => out.result.toOption.map fun sol => (sol.status, sol.iterations)) =
        .ok (some (.optimal, 2)) := by decide +kernel
  cases hout : hazySample.solve? .standard none with
  | error fault =>
    rw [hout] at hrun
    cases hrun
  | ok out =>
    rw [hout] at hrun
    obtain ⟨sol, hsol, hends⟩ := Option.map_eq_some_iff.1 (Except.ok.inj hrun)
    have hresult : out.result = .ok sol := by
      cases hr : out.result with
      | error d => rw [hr] at hsol; cases hsol
      | ok sol' => rw [hr] at hsol; rw [Option.some.inj hsol]
    obtain ⟨hconcluded, -, search, own, hevents, hsearch, htold⟩ :=
      (solve_told .standard hazySample none hout).2.1 sol hresult
    obtain ⟨t, ht, rfl⟩ := hsearch.needed ⟨by decide +kernel, fun _ hx => nomatch hx⟩
    exact ⟨out, sol, t, own, rfl, hresult, congrArg Prod.fst hends, congrArg Prod.snd hends,
      hconcluded, ht, htold, hevents⟩

end QuadraticProgram

end QuadProg
