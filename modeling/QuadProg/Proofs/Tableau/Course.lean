import QuadProg.Proofs.Lossy
import QuadProg.Proofs.Tableau.Pivots
import QuadProg.Proofs.Tableau.Range
import QuadProg.Proofs.Trace

/-!
# The course of a run

What a run tells its observers, event by event, over any scalars. A run announces an iteration,
leaves the first phase if that is done, and makes a pivot; so it goes on until there is no next
pivot or the limit is reached. `Course` follows it from one pivot to the next. By induction along
it, the pivots that were told lead to the last tableau, the numbers of the iterations count them,
the changes of status form a chain, and the second phase is entered at most once, with all pivots of
the first phase before and all those of the second one after.
-/

namespace QuadProg

namespace Tableau

variable {α : Type} [Scalar α] {par : Params α}

/-! ## The events of one step -/

theorem events_enterPhaseTwo (par : Params α) (t : Tableau α) : (t.enterPhaseTwo par).2.events =
    (Trace.transition t.status (t.enterPhaseTwo par).1.status).events := by
  unfold enterPhaseTwo
  split
  · rfl
  · simp

theorem events_advance (t : Tableau α) (row col : ℕ) : (t.advance row col).2.events =
    (Trace.transition t.status (t.advance row col).1.status).events ++
      [.pivot t.phase row col (t.advance row col).1.basis (t.advance row col).1.objective] := by
  unfold advance
  cases t.phase with
  | one => simp [pivot]
  | two => simp [moveTo, pivot]

/-- What is told before the next pivot is chosen. -/
def heading (par : Params α) (t : Tableau α) : List (Event α) :=
  .iteration t.iterations t.status :: (t.enterPhaseTwo par).2.events

@[simp] theorem iterations_heading (t : Tableau α) :
    Trace.iterations (t.heading par) = [(t.iterations, t.status)] := by
  simp [heading, events_enterPhaseTwo]

@[simp] theorem pivots_heading (t : Tableau α) : Trace.pivots (t.heading par) = [] := by
  simp [heading, events_enterPhaseTwo]

theorem leads_heading (t : Tableau α) :
    Trace.Leads t.status (t.heading par) (t.enterPhaseTwo par).1.status := by
  refine ⟨rfl, ?_⟩
  rw [events_enterPhaseTwo]
  exact Trace.leads_transition _ _

@[simp] theorem iterations_events_advance (t : Tableau α) (row col : ℕ) :
    Trace.iterations (t.advance row col).2.events = [] := by
  simp [events_advance]

@[simp] theorem pivots_events_advance (t : Tableau α) (row col : ℕ) :
    Trace.pivots (t.advance row col).2.events = [(t.phase, row, col)] := by
  simp [events_advance]

theorem leads_advance (t : Tableau α) (row col : ℕ) :
    Trace.Leads t.status (t.advance row col).2.events (t.advance row col).1.status := by
  rw [events_advance]
  exact (Trace.leads_transition _ _).append rfl

/-! ## The steps of a run -/

/-- A run that has been tested for the end of the first phase goes from `t` with at most `fuel`
pivots to `t'`, and tells `events`. -/
inductive Course (par : Params α) : ℕ → Tableau α → List (Event α) → Tableau α → Prop
  /-- There is no next pivot. -/
  | stuck {fuel : ℕ} {t : Tableau α} {status : Status} (next : t.nextPivot par = .error status) :
    Course par fuel t (Trace.transition t.status status).events { t with status }
  /-- The limit of pivots is reached in the first phase. -/
  | failed {t : Tableau α} (phase : t.phase = .one) :
    Course par 0 t (Trace.transition t.status .failed).events { t with status := .failed }
  /-- The limit of pivots is reached in the second phase. -/
  | limit {t : Tableau α} (phase : t.phase = .two) : Course par 0 t [] t
  /-- A pivot is made. -/
  | pivot {fuel : ℕ} {t t' : Tableau α} {row col : ℕ} {events : List (Event α)}
    (next : t.nextPivot par = .ok (row, col))
    (rest : Course par fuel ((t.advance row col).1.enterPhaseTwo par).1 events t') :
    Course par (fuel + 1) t
      ((t.advance row col).2.events ++ (t.advance row col).1.heading par ++ events) t'

theorem events_run_of_error (fuel : ℕ) {t : Tableau α} {status : Status}
    (hnext : (t.enterPhaseTwo par).1.nextPivot par = .error status) :
    (t.run par fuel).2.events =
      t.heading par ++ (Trace.transition (t.enterPhaseTwo par).1.status status).events := by
  unfold run heading
  generalize t.enterPhaseTwo par = entry at hnext ⊢
  obtain ⟨t₁, trace⟩ := entry
  dsimp only at hnext ⊢
  rw [hnext]
  simp [moveTo]

theorem events_run_zero_of_ok {t : Tableau α} {choice : ℕ × ℕ}
    (hnext : (t.enterPhaseTwo par).1.nextPivot par = .ok choice) :
    (t.run par 0).2.events = t.heading par ++
      match (t.enterPhaseTwo par).1.phase with
      | .one => (Trace.transition (t.enterPhaseTwo par).1.status .failed).events
      | .two => [] := by
  unfold run heading
  generalize t.enterPhaseTwo par = entry at hnext ⊢
  obtain ⟨t₁, trace⟩ := entry
  dsimp only at hnext ⊢
  rw [hnext]
  cases hphase : t₁.phase with
  | one => simp [moveTo]
  | two => simp

theorem events_run_succ_of_ok (fuel : ℕ) {t : Tableau α} {row col : ℕ}
    (hnext : (t.enterPhaseTwo par).1.nextPivot par = .ok (row, col)) :
    (t.run par (fuel + 1)).2.events =
      t.heading par ++ ((t.enterPhaseTwo par).1.advance row col).2.events ++
        (((t.enterPhaseTwo par).1.advance row col).1.run par fuel).2.events := by
  rw [run, heading]
  generalize t.enterPhaseTwo par = entry at hnext ⊢
  obtain ⟨t₁, trace⟩ := entry
  dsimp only at hnext ⊢
  rw [hnext]
  simp

/-- Every run takes such a course. -/
theorem course_run (par : Params α) (fuel : ℕ) (t : Tableau α) :
    ∃ events, (t.run par fuel).2.events = t.heading par ++ events ∧
      Course par fuel (t.enterPhaseTwo par).1 events (t.run par fuel).1 := by
  induction fuel generalizing t with
  | zero =>
    cases hnext : (t.enterPhaseTwo par).1.nextPivot par with
    | error status =>
      exact ⟨_, events_run_of_error 0 hnext, run_of_error hnext ▸ .stuck hnext⟩
    | ok choice =>
      have hevents := events_run_zero_of_ok hnext
      have hrun := run_zero_of_ok hnext
      cases hphase : (t.enterPhaseTwo par).1.phase with
      | one =>
        rw [hphase] at hevents hrun
        exact ⟨_, hevents, hrun ▸ .failed hphase⟩
      | two =>
        rw [hphase] at hevents hrun
        exact ⟨_, hevents, hrun ▸ .limit hphase⟩
  | succ fuel ih =>
    cases hnext : (t.enterPhaseTwo par).1.nextPivot par with
    | error status =>
      exact ⟨_, events_run_of_error (fuel + 1) hnext, run_of_error hnext ▸ .stuck hnext⟩
    | ok choice =>
      obtain ⟨row, col⟩ := choice
      obtain ⟨events, hevents, hcourse⟩ := ih ((t.enterPhaseTwo par).1.advance row col).1
      rw [events_run_succ_of_ok fuel hnext, run_succ_of_ok fuel hnext, hevents]
      exact ⟨_, by simp, .pivot hnext hcourse⟩

variable {fuel : ℕ} {t t' : Tableau α} {events : List (Event α)}

/-! ## Counts and changes of status -/

theorem Course.leads (h : Course par fuel t events t') :
    Trace.Leads t.status events t'.status := by
  induction h with
  | stuck _ => exact Trace.leads_transition _ _
  | failed _ => exact Trace.leads_transition _ _
  | limit _ => rfl
  | pivot _ _ ih => exact ((leads_advance _ _ _).append (leads_heading _)).append ih

/-- The pivots that are told are counted, and after each of them an iteration is announced. -/
theorem Course.count (h : Course par fuel t events t') :
    (Trace.pivots events).length ≤ fuel ∧
      t'.iterations = t.iterations + (Trace.pivots events).length ∧
      (Trace.iterations events).map Prod.fst =
        List.range' (t.iterations + 1) (Trace.pivots events).length := by
  induction h with
  | stuck _ => simp
  | failed _ => simp
  | limit _ => simp
  | pivot next rest ih =>
    obtain ⟨hle, hcount, hnumbers⟩ := ih
    rw [iterations_enterPhaseTwo, iterations_advance] at hcount hnumbers
    simp only [Trace.pivots_append, pivots_events_advance, pivots_heading, Trace.iterations_append,
      iterations_events_advance, iterations_heading, iterations_advance, List.append_nil,
      List.nil_append, List.singleton_append, List.length_cons, List.map_cons, hnumbers, hcount]
    exact ⟨by omega, by omega, List.range'_succ.symm⟩

/-! ## Repeating the pivots -/

/-- The tableaux differ in phase, status and count at most. -/
structure Agrees (t u : Tableau α) : Prop where
  n_eq : t.n = u.n
  m_eq : t.m = u.m
  grid_eq : t.grid = u.grid
  basis_eq : t.basis = u.basis
  columns_eq : t.columns = u.columns

omit [Scalar α] in
theorem agrees_self (t : Tableau α) : Agrees t t := ⟨rfl, rfl, rfl, rfl, rfl⟩

omit [Scalar α] in
theorem Agrees.trans {u : Tableau α} (h : Agrees t u) (h' : Agrees u t') : Agrees t t' :=
  ⟨h.n_eq.trans h'.n_eq, h.m_eq.trans h'.m_eq, h.grid_eq.trans h'.grid_eq,
    h.basis_eq.trans h'.basis_eq, h.columns_eq.trans h'.columns_eq⟩

theorem Agrees.pivot {u : Tableau α} (h : Agrees t u) (row col : ℕ) :
    Agrees (t.pivot row col) (u.pivot row col) := by
  refine ⟨h.n_eq, h.m_eq, ?_, ?_, ?_⟩
  all_goals simp only [Tableau.pivot, h.grid_eq, h.basis_eq, h.columns_eq]

theorem agrees_enterPhaseTwo (t : Tableau α) : Agrees t (t.enterPhaseTwo par).1 := by
  rw [enterPhaseTwo_eq]
  split
  · exact ⟨rfl, rfl, rfl, rfl, rfl⟩
  · exact agrees_self t

theorem agrees_advance (t : Tableau α) (row col : ℕ) :
    Agrees (t.pivot row col) (t.advance row col).1 := by
  rw [advance_eq]
  exact ⟨rfl, rfl, rfl, rfl, rfl⟩

/-- The pivots turn the one tableau into the other, up to phase, status and count. -/
def LeadTo (t t' : Tableau α) (choices : List (ℕ × ℕ)) : Prop :=
  ∃ u, t.pivots? choices = .ok u ∧ Agrees u t'

theorem leadTo_nil (h : Agrees t t') : LeadTo t t' [] := ⟨t, rfl, h⟩

theorem LeadTo.agrees {u : Tableau α} {choices : List (ℕ × ℕ)} (h : LeadTo u t' choices)
    (hagrees : Agrees t u) : LeadTo t t' choices := by
  obtain ⟨v, hpivots, hv⟩ := h
  -- Both starts are general in the induction, since after a pivot of each they agree again.
  induction choices generalizing t u with
  | nil =>
    obtain rfl : u = v := by simpa [pivots?, pure, Except.pure] using hpivots
    exact leadTo_nil (hagrees.trans hv)
  | cons choice rest ih =>
    obtain ⟨row, col⟩ := choice
    obtain ⟨u₁, hpivot, hrest⟩ := Checked.bind_eq_ok_iff.1
      (show (u.pivot? row col >>= fun u₁ => u₁.pivots? rest) = .ok v from hpivots)
    obtain ⟨⟨hrow, hcol⟩, rfl⟩ := guarded_eq_ok_iff.1 hpivot
    rw [LeadTo, pivots?_cons_of_lt (hagrees.m_eq ▸ hrow) (hagrees.n_eq ▸ hcol)]
    exact ih (hagrees.pivot row col) hrest

/-- A pivot of a run comes before those that follow. -/
theorem LeadTo.cons (hb : t.Bookkept) {row col : ℕ} {choices : List (ℕ × ℕ)}
    (hnext : t.nextPivot par = .ok (row, col)) (h : LeadTo (t.advance row col).1 t' choices) :
    LeadTo t t' ((row, col) :: choices) := by
  obtain ⟨hrow, hcol, -⟩ := hb.of_nextPivot hnext
  rw [LeadTo, pivots?_cons_of_lt hrow hcol]
  exact h.agrees (agrees_advance t row col)

/-- The pivots that are told lead to the last tableau. -/
theorem Course.leadTo (h : Course par fuel t events t') (hb : t.Bookkept) :
    LeadTo t t' (Trace.choices events) := by
  induction h with
  | stuck _ =>
    rw [Trace.choices, Trace.pivots_transition]
    exact leadTo_nil ⟨rfl, rfl, rfl, rfl, rfl⟩
  | failed _ =>
    rw [Trace.choices, Trace.pivots_transition]
    exact leadTo_nil ⟨rfl, rfl, rfl, rfl, rfl⟩
  | limit _ => exact leadTo_nil (agrees_self _)
  | pivot next rest ih =>
    have hrest := ih ((hb.advance next).enterPhaseTwo par)
    simpa [Trace.choices] using (hrest.agrees (agrees_enterPhaseTwo _)).cons hb next

/-! ## The end of a run -/

/-- A run that ends in the first phase has found the program infeasible or has come to the limit,
and a run that ends in the second phase has found an optimum or a ray or has come to the limit. -/
theorem Course.ends (h : Course par fuel t events t') (hway : t.Underway) :
    (t'.phase = .one ∧ (t'.status = .infeasible ∨
      t'.status = .failed ∧ t'.iterations = t.iterations + fuel)) ∨
    (t'.phase = .two ∧ (t'.status = .optimal ∨ t'.status = .unbounded ∨
      (t'.status = .approximate ∨ t'.status = .feasible) ∧
        t'.iterations = t.iterations + fuel)) := by
  induction h with
  | @stuck fuel t status next =>
    cases hphase : t.phase with
    | one => exact Or.inl ⟨rfl, Or.inl (status_of_phaseOne hphase next)⟩
    | two => exact Or.inr ⟨rfl, (status_of_phaseTwo hphase next).imp_right Or.inl⟩
  | failed hphase => exact Or.inl ⟨hphase, Or.inr ⟨rfl, rfl⟩⟩
  | limit hphase =>
    exact Or.inr ⟨hphase, Or.inr (Or.inr ⟨(hway.status_of_phaseTwo hphase).symm, rfl⟩)⟩
  | @pivot fuel t t' row col events next rest ih =>
    have hends := ih (underway_enterPhaseTwo (underway_advance hway row col))
    rwa [iterations_enterPhaseTwo, iterations_advance, Nat.add_assoc, Nat.add_comm 1] at hends

/-- A run that ends with a point moved towards an optimum made a pivot in the second phase, unless
it began with such a point. -/
theorem Course.of_status_eq_approximate (h : Course par fuel t events t')
    (hstatus : t'.status = .approximate) :
    t.status = .approximate ∨ ∃ p ∈ Trace.pivots events, p.1 = .two := by
  induction h with
  | @stuck fuel t status next =>
    obtain rfl : status = .approximate := hstatus
    cases hphase : t.phase with
    | one => cases status_of_phaseOne hphase next
    | two => rcases status_of_phaseTwo hphase next with h | h <;> cases h
  | failed _ => cases hstatus
  | limit _ => exact Or.inl hstatus
  | @pivot fuel t t' row col events next rest ih =>
    cases hphase : t.phase with
    | two => exact Or.inr ⟨(.two, row, col), by simp [hphase], rfl⟩
    | one =>
      -- Only a pivot of the second phase moves the status to `approximate`.
      rcases ih hstatus with hnow | ⟨p, hmem, htwo⟩
      · rw [status_enterPhaseTwo, status_advance, hphase] at hnow
        split at hnow
        · cases hnow
        · exact Or.inl hnow
      · exact Or.inr ⟨p, by simp [hmem], htwo⟩

/-- A run that ends with a point that has not been moved made no pivot in the second phase. -/
theorem Course.of_status_eq_feasible (h : Course par fuel t events t')
    (hstatus : t'.status = .feasible) :
    (∀ p ∈ Trace.pivots events, p.1 = .one) ∧ (t.phase = .two → t.status = .feasible) := by
  induction h with
  | @stuck fuel t status next =>
    obtain rfl : status = .feasible := hstatus
    cases hphase : t.phase with
    | one => cases status_of_phaseOne hphase next
    | two => rcases status_of_phaseTwo hphase next with h | h <;> cases h
  | failed _ => cases hstatus
  | limit _ => exact ⟨by simp, fun _ => hstatus⟩
  | @pivot fuel t t' row col events next rest ih =>
    obtain ⟨hpivots, hentered⟩ := ih hstatus
    cases hphase : t.phase with
    | one => exact ⟨by simpa [hphase] using hpivots, fun h => by cases h⟩
    | two =>
      have hphase₁ : (t.advance row col).1.phase = .two := (phase_advance t row col).trans hphase
      rw [enterPhaseTwo_of_phaseTwo hphase₁, status_advance, hphase] at hentered
      cases hentered hphase₁

/-! ## The change of phase -/

/-- What is told of the phases of a run that starts in the first phase. -/
inductive Switches (par : Params α) (t : Tableau α) (events : List (Event α)) : Phase → Prop
  /-- The run stays in the first phase. -/
  | never (pivots : ∀ p ∈ Trace.pivots events, p.1 = .one)
    (absent : .transition .valid .feasible ∉ events) : Switches par t events .one
  /-- The run changes to the second phase, once, at the tableau `u`. -/
  | once (before after : List (Event α)) (u : Tableau α)
    (split : events = before ++ .transition .valid .feasible :: after)
    (absent_before : .transition .valid .feasible ∉ before)
    (absent_after : .transition .valid .feasible ∉ after)
    (leadTo : LeadTo t u (Trace.choices before))
    (done : u.artificials = 0 ∨ par.objective.isZero u.infeasibility = true)
    (pivots_before : ∀ p ∈ Trace.pivots before, p.1 = .one)
    (pivots_after : ∀ p ∈ Trace.pivots after, p.1 = .two) : Switches par t events .two

/-- In the second phase all pivots are of that phase, and it is not entered again. -/
theorem Course.of_phaseTwo (h : Course par fuel t events t') (hphase : t.phase = .two)
    (hway : t.Underway) :
    t'.phase = .two ∧ .transition .valid .feasible ∉ events ∧
      ∀ p ∈ Trace.pivots events, p.1 = .two := by
  have hkeep : ∀ {t : Tableau α} {status : Status}, t.phase = .two → t.Underway →
      .transition .valid .feasible ∉ (Trace.transition t.status status : Trace α).events := by
    intro t status hphase hway hmem
    have hsource : Status.valid = t.status := (Trace.eq_of_transition_mem hmem).1
    rcases hway.status_of_phaseTwo hphase with hstatus | hstatus
    · cases hsource.trans hstatus
    · cases hsource.trans hstatus
  induction h with
  | stuck next => exact ⟨hphase, hkeep hphase hway, by simp⟩
  | failed hone => rw [hone] at hphase; cases hphase
  | limit _ => exact ⟨hphase, by simp, by simp⟩
  | @pivot fuel t t' row col events next rest ih =>
    have hphase₁ : (t.advance row col).1.phase = .two := (phase_advance t row col).trans hphase
    have hstay : ((t.advance row col).1.enterPhaseTwo par).1 = (t.advance row col).1 :=
      enterPhaseTwo_of_phaseTwo hphase₁
    rw [hstay] at ih
    obtain ⟨hend, habsent, hpivots⟩ := ih hphase₁ (underway_advance hway row col)
    refine ⟨hend, ?_, by simpa [hphase] using hpivots⟩
    have habsent₁ : .transition .valid .feasible ∉
        (Trace.transition t.status (t.advance row col).1.status : Trace α).events :=
      hkeep hphase hway
    simp [events_advance, heading, events_enterPhaseTwo, hstay, habsent, habsent₁]

/-- Pivots of the first phase come before what is told from then on. -/
theorem Switches.prepend {u : Tableau α} {phase : Phase} {first : List (Event α)}
    (h : Switches par u events phase) (hpivots : ∀ p ∈ Trace.pivots first, p.1 = .one)
    (habsent : .transition .valid .feasible ∉ first)
    (hlead : ∀ v choices, LeadTo u v choices → LeadTo t v (Trace.choices first ++ choices)) :
    Switches par t (first ++ events) phase := by
  have hboth : ∀ {later : List (Event α)}, (∀ p ∈ Trace.pivots later, p.1 = .one) →
      ∀ p ∈ Trace.pivots (first ++ later), p.1 = .one := by
    intro later hlater p hmem
    rw [Trace.pivots_append] at hmem
    exact (List.mem_append.1 hmem).elim (hpivots p) (hlater p)
  cases h with
  | never pivots absent => exact .never (hboth pivots) (by simp [habsent, absent])
  | once before after v split absent_before absent_after leadTo done pivots_before pivots_after =>
    refine .once (first ++ before) after v (by simp [split]) (by simp [habsent, absent_before])
      absent_after ?_ done (hboth pivots_before) pivots_after
    simpa [Trace.choices] using hlead v _ leadTo

/-- A tableau of the first phase is tested for its end. If the first phase is done, the change is
told at once and never again. -/
theorem Switches.of_heading (hphase : t.phase = .one) (hway : t.Underway)
    (hcourse : Course par fuel (t.enterPhaseTwo par).1 events t')
    (hrest : (t.enterPhaseTwo par).1 = t → Switches par t events t'.phase) :
    Switches par t (t.heading par ++ events) t'.phase := by
  have hstatus : t.status = .valid := by simpa [Underway, hphase] using hway
  cases hdone : t.isPhaseOneDone par with
  | false =>
    have hstay : (t.enterPhaseTwo par).1 = t := by simp [enterPhaseTwo_eq, hdone]
    refine (hrest hstay).prepend (by simp) ?_ fun v choices h => ?_
    · simp [heading, events_enterPhaseTwo, hstay]
    · simpa [Trace.choices] using h
  | true =>
    have hentered : (t.enterPhaseTwo par).1 = { t with phase := .two, status := .feasible } := by
      simp [enterPhaseTwo_eq, hdone]
    obtain ⟨htwo, habsent, hpivots⟩ :=
      hcourse.of_phaseTwo (by rw [hentered]) (underway_enterPhaseTwo hway)
    rw [htwo]
    refine .once [.iteration t.iterations t.status] events t ?_ (by simp) habsent
      (leadTo_nil (agrees_self t)) ?_ (by simp) hpivots
    · simp [heading, events_enterPhaseTwo, hentered, hstatus, Trace.events_transition]
    · simpa [isPhaseOneDone, hphase] using hdone

theorem Course.switches (h : Course par fuel t events t') (hb : t.Bookkept)
    (hphase : t.phase = .one) (hway : t.Underway) : Switches par t events t'.phase := by
  induction h with
  | stuck next =>
    obtain rfl := status_of_phaseOne hphase next
    refine hphase ▸ .never (by simp) fun hmem => ?_
    cases (Trace.eq_of_transition_mem hmem).2
  | failed _ =>
    refine hphase ▸ .never (by simp) fun hmem => ?_
    cases (Trace.eq_of_transition_mem hmem).2
  | limit htwo => rw [htwo] at hphase; cases hphase
  | @pivot fuel t t' row col events next rest ih =>
    have hphase₁ : (t.advance row col).1.phase = .one := (phase_advance t row col).trans hphase
    have hway₁ := underway_advance hway row col
    -- The test after the pivot ends the first phase, or else the rest of the run is one of it.
    have hrest : Switches par (t.advance row col).1
        ((t.advance row col).1.heading par ++ events) t'.phase := by
      refine .of_heading hphase₁ hway₁ rest fun hstay => ?_
      rw [hstay] at ih
      exact ih (hb.advance next) hphase₁ hway₁
    rw [List.append_assoc]
    refine hrest.prepend (by simp [hphase]) ?_ fun v choices h => ?_
    · simp [events_advance, status_advance, hphase]
    · simpa [Trace.choices] using h.cons hb next

/-! ## What observers are told -/

/-- What observers are told of a run from the tableau `t` to the tableau `t'`. -/
structure Reported (par : Params α) (t t' : Tableau α) (events : List (Event α)) : Prop where
  iterations_le : t'.iterations ≤ par.maxIter
  /-- The pivots that are told are those that were made. -/
  leadTo : LeadTo t t' (Trace.choices events)
  length_pivots : (Trace.pivots events).length = t'.iterations
  /-- One iteration more is announced than pivots are made. -/
  numbers : (Trace.iterations events).map Prod.fst = List.range (t'.iterations + 1)
  leads : Trace.Leads .valid events t'.status
  switches : Switches par t events t'.phase
  phaseOne_iff : t'.phase = .one ↔ t'.status = .infeasible ∨ t'.status = .failed
  phaseTwo_iff : t'.phase = .two ↔
    t'.status = .optimal ∨ t'.status = .unbounded ∨ t'.status = .approximate ∨
      t'.status = .feasible
  /-- Without a verdict the run has come to its limit. -/
  limit : t'.status = .failed ∨ t'.status = .approximate ∨ t'.status = .feasible →
    t'.iterations = par.maxIter
  approximate : t'.status = .approximate → ∃ p ∈ Trace.pivots events, p.1 = .two
  feasible : t'.status = .feasible → ∀ p ∈ Trace.pivots events, p.1 = .one

/-- The events of a run from a first tableau, over any scalars. -/
theorem reported_solve {a b c : Mat α} (h : ofStandardForm? a b c = .ok t) (par : Params α) :
    Reported par t (t.solve par).1 (t.solve par).2.events := by
  obtain rfl := eq_of_ofStandardForm? h
  generalize ht : ofStandardForm a b c = t
  have hb : t.Bookkept := ht ▸ bookkept_ofStandardForm a b c
  have hway : t.Underway := ht ▸ underway_ofStandardForm a b c
  have hphase : t.phase = .one := ht ▸ rfl
  have hstatus : t.status = .valid := ht ▸ rfl
  have hcount : t.iterations = 0 := ht ▸ rfl
  obtain ⟨events, hevents, hcourse⟩ := course_run par par.maxIter t
  rw [solve_eq_run par hcount, events_solve, hcount, Nat.sub_zero, hevents]
  generalize (t.run par par.maxIter).1 = t' at hcourse
  obtain ⟨hle, htotal, hnumbers⟩ := hcourse.count
  rw [iterations_enterPhaseTwo, hcount, Nat.zero_add] at htotal hnumbers
  have hends := hcourse.ends (underway_enterPhaseTwo hway)
  rw [iterations_enterPhaseTwo, hcount, Nat.zero_add] at hends
  have hlead := (hcourse.leadTo (hb.enterPhaseTwo par)).agrees (agrees_enterPhaseTwo t)
  have hswitches := Switches.of_heading hphase hway hcourse fun hstay =>
    (hstay ▸ hcourse : Course par par.maxIter t events t').switches hb hphase hway
  constructor
  case iterations_le => omega
  case leadTo => simpa [Trace.choices] using hlead
  case length_pivots => simp [htotal]
  case numbers =>
    rw [htotal, List.range_eq_range', List.range'_succ, Trace.iterations_append, List.map_append,
      hnumbers, iterations_heading, hcount]
    rfl
  case leads => exact hstatus ▸ (leads_heading t).append hcourse.leads
  case switches => exact hswitches
  case phaseOne_iff =>
    rcases hends with ⟨hp, h | ⟨h, -⟩⟩ | ⟨hp, h | h | ⟨h | h, -⟩⟩ <;> simp [hp, h]
  case phaseTwo_iff =>
    rcases hends with ⟨hp, h | ⟨h, -⟩⟩ | ⟨hp, h | h | ⟨h | h, -⟩⟩ <;> simp [hp, h]
  case limit =>
    intro hlimit
    rcases hends with ⟨-, h | ⟨-, hc⟩⟩ | ⟨-, h | h | ⟨-, hc⟩⟩
    · simp [h] at hlimit
    · exact hc
    · simp [h] at hlimit
    · simp [h] at hlimit
    · exact hc
  case approximate =>
    intro h
    rcases hcourse.of_status_eq_approximate h with hstart | hpivot
    · rw [status_enterPhaseTwo, hstatus] at hstart
      split at hstart <;> cases hstart
    · simpa using hpivot
  case feasible =>
    intro h
    simpa using (hcourse.of_status_eq_feasible h).1

/-- The rows `x₀ + x₁ + x₂ = 1` and `x₀ + x₁ + x₂ = 1`, where the coefficients of `x₁` are no
numbers. After one pivot the first phase is done, with an artificial variable in the basis. -/
theorem reported_solve_sample :
    let a : Mat Lossy := .ofFn (.general 2 3) fun _ j => if j = 1 then .nan else .num 1
    let b : Mat Lossy := .ofFn (.general 2 1) fun _ _ => .num 1
    let c : Mat Lossy := .ofFn (.general 3 1) fun j _ => if j = 2 then .num (-1) else .num 0
    ∃ t, ofStandardForm? a b c = .ok t ∧
      (t.solve .standard).1.status = .optimal ∧ (t.solve .standard).1.iterations = 2 ∧
      Reported .standard t (t.solve .standard).1 (t.solve .standard).2.events := by
  intro a b c
  have hstart : ofStandardForm? a b c = .ok (ofStandardForm a b c) :=
    ofStandardForm?_eq_ok (by decide +kernel) rfl rfl (by decide +kernel)
  exact ⟨_, hstart, by decide +kernel, by decide +kernel, reported_solve hstart .standard⟩

end Tableau

end QuadProg
