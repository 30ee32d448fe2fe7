import QuadProg.Proofs.Tableau.Course
import QuadProg.Proofs.Tableau.Residue

/-!
# The objective along a run

In exact arithmetic no pivot raises the objective of its phase. The objective changes by the reduced
cost of the entering column, which is negative, times the ratio of the leaving row, which is not: so
it stays the same just when the right-hand side of that row is zero. In the first phase a column
that would lower the sum of the artificial variables always finds a row, since the sum cannot fall
below zero.

What observers are told of the objectives is followed by `Falls`, which repeats the pivots that are
told on the tableau from which the run started.
-/

namespace QuadProg

/-- The objectives that were told after the pivots of a phase. -/
def Trace.objectives {α : Type} (phase : Phase) (events : List (Event α)) : List α :=
  events.filterMap fun
    | .pivot told _ _ _ objective => if told = phase then some objective else none
    | _ => none

namespace Tableau

variable {K : Type} [Field K] [LinearOrder K] [Exact K]

/-- The pivots that are told, made one after the other from the tableau `t`, do not raise the
objective of the phase, which was `value` before. It is the same as before just when the right-hand
side of the pivot row was zero. -/
def Falls (phase : Phase) : Tableau K → K → List (Event K) → Prop
  | _, _, [] => True
  | t, value, .pivot told row col _ objective :: rest =>
    if told = phase then
      objective ≤ value ∧ (objective = value ↔ t.rhs row = 0) ∧
        Falls phase (t.pivot row col) objective rest
    else Falls phase (t.pivot row col) value rest
  | t, value, _ :: rest => Falls phase t value rest

variable {phase : Phase} {t u : Tableau K} {value : K} {events : List (Event K)}

/-! ## Reading the events -/

/-- The objectives of a phase never rise. -/
theorem Falls.pairwise (h : Falls phase t value events) :
    (value :: Trace.objectives phase events).Pairwise (· ≥ ·) := by
  rw [← List.isChain_iff_pairwise]
  induction events generalizing t value with
  | nil => exact List.isChain_singleton value
  | cons e rest ih =>
    cases e with
    | iteration count status => exact ih (t := t) h
    | transition source target => exact ih (t := t) h
    | pivot told row col basis objective =>
      by_cases htold : told = phase
      · rw [Falls, if_pos htold] at h
        obtain ⟨hle, -, hrest⟩ := h
        have hobjectives : Trace.objectives phase (.pivot told row col basis objective :: rest) =
            objective :: Trace.objectives phase rest := by
          simp [Trace.objectives, htold]
        rw [hobjectives]
        exact List.isChain_cons_cons.2 ⟨hle, ih hrest⟩
      · rw [Falls, if_neg htold] at h
        have hobjectives : Trace.objectives phase (.pivot told row col basis objective :: rest) =
            Trace.objectives phase rest := by
          simp [Trace.objectives, htold]
        rw [hobjectives]
        exact ih h

/-- Phase, status and count do not matter. -/
theorem Falls.agrees (h : Falls phase u value events) (hagrees : Agrees t u) :
    Falls phase t value events := by
  induction events generalizing t u value with
  | nil => trivial
  | cons e rest ih =>
    cases e with
    | iteration count status => exact ih (u := u) h hagrees
    | transition source target => exact ih (u := u) h hagrees
    | pivot told row col basis objective =>
      have hpivot := hagrees.pivot row col
      unfold Falls at h ⊢
      split at h
      · next htold =>
        obtain ⟨hle, hiff, hrest⟩ := h
        have hrhs : t.rhs row = u.rhs row := by
          rw [rhs, rhs, hagrees.grid_eq, hagrees.n_eq, hagrees.m_eq]
        rw [if_pos htold, hrhs]
        exact ⟨hle, hiff, ih hrest hpivot⟩
      · next htold =>
        rw [if_neg htold]
        exact ih h hpivot

/-- What is told before the next pivot does not matter. -/
theorem Falls.prepend {first : List (Event K)} (hnone : Trace.pivots first = [])
    (h : Falls phase t value events) : Falls phase t value (first ++ events) := by
  induction first with
  | nil => exact h
  | cons e rest ih =>
    cases e with
    | iteration count status => exact ih hnone
    | transition source target => exact ih hnone
    | pivot told row col basis objective => cases hnone

/-- Without a pivot of the phase nothing is said of its objective. -/
theorem falls_of_forall_ne (h : ∀ p ∈ Trace.pivots events, p.1 ≠ phase) :
    Falls phase t value events := by
  induction events generalizing t with
  | nil => trivial
  | cons e rest ih =>
    cases e with
    | iteration count status => exact ih h
    | transition source target => exact ih h
    | pivot told row col basis objective =>
      obtain ⟨htold, hrest⟩ := List.forall_mem_cons.1 h
      rw [Falls, if_neg htold]
      exact ih hrest

/-! ## One pivot -/

variable {a b c : Mat K} {par : Params K}

theorem objective_enterPhaseTwo (hphase : (t.enterPhaseTwo par).1.phase = t.phase) :
    (t.enterPhaseTwo par).1.objective = t.objective := by
  rw [enterPhaseTwo_eq] at hphase ⊢
  split at hphase
  · next hdone =>
    rw [if_pos hdone]
    simp [objective, objectiveRow, rhs, ← hphase]
  · next hdone => rw [if_neg hdone]

/-- A pivot lowers the objective by the reduced cost of its column for each unit of the ratio. -/
theorem Represents.objective_advance (h : Represents a b c t) {row col : ℕ} (hrow : row < t.m)
    (hne : t.grid.get row col ≠ 0) : (t.advance row col).1.objective =
      t.objective + t.grid.get t.objectiveRow col * (t.rhs row / t.grid.get row col) := by
  have hobjective : t.objectiveRow < t.m + 2 ∧ t.objectiveRow ≠ row := by
    unfold objectiveRow
    split <;> omega
  have hsame : (t.advance row col).1.objective = -(t.pivot row col).rhs t.objectiveRow := by
    rw [advance_eq]
    rfl
  rw [hsame, rhs_pivot h.shape_eq hobjective.1 hne, if_neg hobjective.2, neg_sub, sub_eq_neg_add]
  rfl

variable [IsStrictOrderedRing K]

/-- The objective falls, or the right-hand side of the pivot row is zero and it stays as it is. -/
theorem Admissible.objective_advance_le (h : Admissible a b c t) (hpar : par.ExactPivots)
    (hε : (Scalar.epsilon : K) = 0) {row col : ℕ} (hnext : t.nextPivot par = .ok (row, col)) :
    (t.advance row col).1.objective ≤ t.objective ∧
      ((t.advance row col).1.objective = t.objective ↔ t.rhs row = 0) := by
  obtain ⟨hentering, hleaving⟩ := nextPivot_eq_ok_iff.1 hnext
  have hneg : t.grid.get t.objectiveRow col < 0 :=
    get_objectiveRow_neg (fun _ => hpar.threshold) hentering
  obtain ⟨hrow, hne, hratio, -⟩ := h.of_leavingRow_eq_some hpar.toExactRatios hε hleaving
  rw [h.represents.objective_advance hrow hne]
  constructor
  · have hchange := mul_nonpos_of_nonpos_of_nonneg hneg.le hratio
    linarith
  · rw [add_eq_left, mul_eq_zero, div_eq_zero_iff]
    constructor
    · rintro (hzero | hzero | hzero)
      · exact absurd hzero hneg.ne
      · exact hzero
      · exact absurd hzero hne
    · exact fun hzero => Or.inr (Or.inl hzero)

/-- In the first phase a column that may enter has a row that may leave. -/
theorem Admissible.exists_leavingRow (h : Admissible a b c t) (hpar : par.ExactPivots)
    (hε : (Scalar.epsilon : K) = 0) (hmax : 0 < (Scalar.maxValue : K))
    (hbelow : t.RatiosBelowMax par) (hphase : t.phase = .one) {col : ℕ}
    (hentering : t.enteringColumn par = some col) : ∃ row, t.leavingRow par col = some row := by
  have hneg : t.grid.get t.objectiveRow col < 0 :=
    get_objectiveRow_neg (fun _ => hpar.threshold) hentering
  rw [objectiveRow, hphase] at hneg
  have hpos := h.exists_pos_of_phaseOne (h.bookkept.enteringColumn_lt hentering) hneg
  cases hleaving : t.leavingRow par col with
  | some row => exact ⟨row, rfl⟩
  | none =>
    refine absurd (fun r hr => ?_) hpos
    exact (h.of_leavingRow_eq_none hpar.toExactRatios hε hmax (hbelow col hentering) hleaving hr).1

/-! ## Runs -/

omit [IsStrictOrderedRing K] in
theorem agrees_next (par : Params K) (t : Tableau K) (row col : ℕ) :
    Agrees (t.pivot row col) ((t.advance row col).1.enterPhaseTwo par).1 :=
  (agrees_advance t row col).trans (agrees_enterPhaseTwo _)

/-- A pivot of the phase comes before those that follow. -/
theorem Falls.cons (h : Admissible a b c t) (hpar : par.ExactPivots)
    (hε : (Scalar.epsilon : K) = 0) {row col : ℕ} (hnext : t.nextPivot par = .ok (row, col))
    (hphase : t.phase = phase)
    (hrest : Falls phase ((t.advance row col).1.enterPhaseTwo par).1
      (t.advance row col).1.objective events) :
    Falls phase t t.objective
      ((t.advance row col).2.events ++ (t.advance row col).1.heading par ++ events) := by
  obtain ⟨hle, hiff⟩ := h.objective_advance_le hpar hε hnext
  have hagrees := agrees_next par t row col
  rw [events_advance, List.append_assoc, List.append_assoc]
  apply Falls.prepend (Trace.pivots_transition _ _)
  rw [List.singleton_append, Falls, if_pos hphase]
  exact ⟨hle, hiff, (hrest.agrees hagrees).prepend (pivots_heading _)⟩

omit [IsStrictOrderedRing K] in
/-- A pivot of the other phase is repeated only. -/
theorem Falls.skip {row col : ℕ} (hphase : t.phase ≠ phase)
    (hrest : Falls phase ((t.advance row col).1.enterPhaseTwo par).1 value events) :
    Falls phase t value
      ((t.advance row col).2.events ++ (t.advance row col).1.heading par ++ events) := by
  have hagrees := agrees_next par t row col
  rw [events_advance, List.append_assoc, List.append_assoc]
  apply Falls.prepend (Trace.pivots_transition _ _)
  rw [List.singleton_append, Falls, if_neg hphase]
  exact (hrest.agrees hagrees).prepend (pivots_heading _)

/-- The first tableau of a phase that a run compares, if it comes to that phase. -/
def firstOf (par : Params K) (fuel : ℕ) (phase : Phase) (t : Tableau K) : Option (Tableau K) :=
  (tested par fuel t).find? fun u => u.phase = phase

omit [IsStrictOrderedRing K] in
theorem firstOf_of_entered {fuel : ℕ} (hentered : (t.enterPhaseTwo par).1 = t)
    (hphase : t.phase = phase) : firstOf par fuel phase t = some t := by
  cases fuel with
  | zero => simp [firstOf, tested, hentered, hphase]
  | succ fuel => simp [firstOf, tested, hentered, hphase]

omit [IsStrictOrderedRing K] in
theorem firstOf_succ {fuel : ℕ} (hentered : (t.enterPhaseTwo par).1 = t) (hphase : t.phase ≠ phase)
    {row col : ℕ} (hnext : t.nextPivot par = .ok (row, col)) :
    firstOf par (fuel + 1) phase t =
      firstOf par fuel phase ((t.advance row col).1.enterPhaseTwo par).1 := by
  rw [firstOf, tested, hentered, hnext, List.find?_cons_of_neg (by simpa using hphase), firstOf,
    tested_enterPhaseTwo]

/-- The objective of a phase falls from the first tableau of the phase on. -/
structure FallsFrom (par : Params K) (fuel : ℕ) (phase : Phase) (t : Tableau K)
    (events : List (Event K)) : Prop where
  falls : ∀ u, firstOf par fuel phase t = some u → Falls phase t u.objective events
  /-- A phase that the run does not come to has no pivots. -/
  absent : firstOf par fuel phase t = none → ∀ p ∈ Trace.pivots events, p.1 ≠ phase

omit [IsStrictOrderedRing K] in
theorem fallsFrom_of_pivots_eq_nil {fuel : ℕ} (h : Trace.pivots events = []) :
    FallsFrom par fuel phase t events := by
  constructor
  · exact fun u _ => falls_of_forall_ne (by simp [h])
  · exact fun _ => by simp [h]

omit [IsStrictOrderedRing K] in
/-- The pivots that follow the last one of a phase are of the other phase. -/
theorem Course.forall_ne_of_phase_ne {fuel : ℕ} {t' : Tableau K} {row col : ℕ}
    (h : Course par fuel ((t.advance row col).1.enterPhaseTwo par).1 events t') (hway : t.Underway)
    (hphase : t.phase = phase)
    (hne : ((t.advance row col).1.enterPhaseTwo par).1.phase ≠ phase) :
    ∀ p ∈ Trace.pivots events, p.1 ≠ phase := by
  have hphase₁ : (t.advance row col).1.phase = phase := (phase_advance t row col).trans hphase
  cases phase with
  | one =>
    have htwo : ((t.advance row col).1.enterPhaseTwo par).1.phase = .two := by
      cases hlater : ((t.advance row col).1.enterPhaseTwo par).1.phase with
      | one => exact absurd hlater hne
      | two => rfl
    have hway' : ((t.advance row col).1.enterPhaseTwo par).1.Underway :=
      underway_enterPhaseTwo (underway_advance hway row col)
    obtain ⟨-, -, hpivots⟩ := h.of_phaseTwo htwo hway'
    intro p hmem
    simp [hpivots p hmem]
  | two =>
    rw [enterPhaseTwo_of_phaseTwo hphase₁] at hne
    exact absurd hphase₁ hne

theorem Course.fallsFrom {fuel : ℕ} {t' : Tableau K} (h : Course par fuel t events t')
    (hadm : Admissible a b c t) (hpar : par.ExactPivots) (hε : (Scalar.epsilon : K) = 0)
    (hway : t.Underway) (hentered : (t.enterPhaseTwo par).1 = t) :
    FallsFrom par fuel phase t events := by
  induction h with
  | stuck _ => exact fallsFrom_of_pivots_eq_nil (Trace.pivots_transition _ _)
  | failed _ => exact fallsFrom_of_pivots_eq_nil (Trace.pivots_transition _ _)
  | limit _ => exact fallsFrom_of_pivots_eq_nil rfl
  | @pivot fuel t t' row col events next rest ih =>
    have hadm' := hadm.advance hpar.toExactRatios hε next
    have hway' := underway_advance hway row col
    have hentered' := enterPhaseTwo_idem par (t.advance row col).1
    obtain ⟨hfalls, habsent⟩ := ih (hadm'.enterPhaseTwo hpar.toExactRatios)
      (underway_enterPhaseTwo hway') hentered'
    by_cases hphase : t.phase = phase
    · have hfirst : firstOf par (fuel + 1) phase t = some t := firstOf_of_entered hentered hphase
      refine ⟨fun u hu => ?_, fun hnone => by rw [hfirst] at hnone; cases hnone⟩
      obtain rfl : t = u := Option.some.inj (hfirst.symm.trans hu)
      apply Falls.cons hadm hpar hε next hphase
      by_cases hphase' : ((t.advance row col).1.enterPhaseTwo par).1.phase = phase
      · have hsame : ((t.advance row col).1.enterPhaseTwo par).1.phase =
            (t.advance row col).1.phase := by
          rw [hphase', phase_advance, hphase]
        rw [← objective_enterPhaseTwo hsame]
        exact hfalls _ (firstOf_of_entered hentered' hphase')
      · exact falls_of_forall_ne (rest.forall_ne_of_phase_ne hway hphase hphase')
    · have hfirst : firstOf par (fuel + 1) phase t =
          firstOf par fuel phase ((t.advance row col).1.enterPhaseTwo par).1 :=
        firstOf_succ hentered hphase next
      constructor
      · intro u hu
        exact Falls.skip hphase (hfalls u (hfirst ▸ hu))
      · intro hnone
        have hrest := habsent (hfirst ▸ hnone)
        simpa [hphase] using hrest

/-! ## The descent -/

/-- A pivot on the row `row` does not raise the objective, and keeps the right-hand sides from being
negative. -/
structure Lowers (t : Tableau K) (row col : ℕ) : Prop where
  rhs_nonneg : ∀ r < t.m, 0 ≤ (t.advance row col).1.rhs r
  objective_le : (t.advance row col).1.objective ≤ t.objective
  objective_eq_iff : (t.advance row col).1.objective = t.objective ↔ t.rhs row = 0

/-- What a run from the tableau `t` does to the right-hand sides and to the objectives. -/
structure Descent (par : Params K) (t : Tableau K) : Prop where
  /-- The right-hand sides are never negative: not at first, not at the end, and not between. -/
  rhs_nonneg : ∀ u ∈ t :: (t.solve par).1 :: tested par par.maxIter t, ∀ r < t.m, 0 ≤ u.rhs r
  lowers : ∀ u ∈ tested par par.maxIter t, ∀ row col, u.nextPivot par = .ok (row, col) →
    Lowers u row col
  /-- If the run has a first phase, that phase starts with the run. -/
  start : ∀ u, firstOf par par.maxIter .one t = some u → u = t
  fallsFrom : ∀ phase, FallsFrom par par.maxIter phase t (t.solve par).2.events
  /-- The objectives that are told in a phase do not rise. -/
  pairwise : ∀ phase u, firstOf par par.maxIter phase t = some u →
    (u.objective :: Trace.objectives phase (t.solve par).2.events).Pairwise (· ≥ ·)
  /-- In the first phase a column that may enter has a row that may leave. -/
  exists_leavingRow : ∀ u ∈ tested par par.maxIter t, u.phase = .one →
    ∀ col, u.enteringColumn par = some col → ∃ row, u.leavingRow par col = some row
  /-- Only the lack of a column makes the program infeasible. -/
  infeasible : (t.solve par).1.status = .infeasible →
    (t.solve par).1.phase = .one ∧ (t.solve par).1.enteringColumn par = none

omit [IsStrictOrderedRing K] in
/-- A run that is in the second phase stays there. -/
theorem firstOf_phaseOne {fuel : ℕ} (h : firstOf par fuel .one t = some u) : u = t := by
  obtain ⟨hmem, hphase⟩ : u ∈ tested par fuel t ∧ u.phase = .one :=
    ⟨List.mem_of_find?_eq_some h, by simpa using List.find?_some h⟩
  cases hentered : (t.enterPhaseTwo par).1.phase with
  | one =>
    have hstay := enterPhaseTwo_of_phaseOne hentered
    rw [firstOf_of_entered hstay (hstay ▸ hentered)] at h
    exact (Option.some.inj h).symm
  | two =>
    rw [← tested_enterPhaseTwo] at hmem
    have htwo := forall_mem_tested (fun u : Tableau K => u.phase = .two)
      (fun u hu => by rwa [enterPhaseTwo_of_phaseTwo hu])
      (fun u row col hu _ => (phase_advance u row col).trans hu) fuel hentered u hmem
    cases hphase.symm.trans htwo

theorem Admissible.lowers (h : Admissible a b c t) (hpar : par.ExactPivots)
    (hε : (Scalar.epsilon : K) = 0) {row col : ℕ} (hnext : t.nextPivot par = .ok (row, col)) :
    Lowers t row col := by
  obtain ⟨hle, hiff⟩ := h.objective_advance_le hpar hε hnext
  have hadvance := h.advance hpar.toExactRatios hε hnext
  refine ⟨fun r hr => hadvance.rhs_nonneg r ?_, hle, hiff⟩
  rwa [hadvance.represents.m_eq, ← h.represents.m_eq]

/-- A run that ends with the status `infeasible` is in the first phase and has no column to enter.
-/
theorem run_lacks_column (hpar : par.ExactPivots) (hε : (Scalar.epsilon : K) = 0)
    (hmax : 0 < (Scalar.maxValue : K)) {fuel : ℕ} (h : Admissible a b c t) (hway : t.Underway)
    (hbelow : ∀ u ∈ tested par fuel t, u.RatiosBelowMax par)
    (hstatus : (t.run par fuel).1.status = .infeasible) :
    (t.run par fuel).1.phase = .one ∧ (t.run par fuel).1.enteringColumn par = none := by
  obtain ⟨t₁, hmem, ⟨h₁, hway₁, -⟩, hend⟩ := run_cases hpar.toExactRatios hε fuel h hway
  obtain ⟨hnext, hrun⟩ := hend.stuck_of_status hway₁ hstatus (Or.inl rfl)
  have hphase := phase_of_infeasible hnext
  rw [hrun]
  refine ⟨hphase, ?_⟩
  rcases nextPivot_eq_error_iff.1 hnext with ⟨hnone, -⟩ | ⟨col, hentering, hnone, -⟩
  · exact hnone
  · obtain ⟨row, hrow⟩ := h₁.exists_leavingRow hpar hε hmax (hbelow t₁ hmem) hphase hentering
    cases hnone.symm.trans hrow

/-- What observers are told of a run falls from the objective with which each phase begins. -/
theorem Admissible.fallsFrom_solve (h : Admissible a b c t) (hpar : par.ExactPivots)
    (hε : (Scalar.epsilon : K) = 0) (hway : t.Underway) (hcount : t.iterations = 0)
    (phase : Phase) : FallsFrom par par.maxIter phase t (t.solve par).2.events := by
  obtain ⟨events, hevents, hcourse⟩ := course_run par par.maxIter t
  obtain ⟨hfalls, habsent⟩ : FallsFrom par par.maxIter phase (t.enterPhaseTwo par).1 events :=
    hcourse.fallsFrom (h.enterPhaseTwo hpar.toExactRatios) hpar hε (underway_enterPhaseTwo hway)
      (enterPhaseTwo_idem par t)
  rw [events_solve, hcount, Nat.sub_zero, hevents]
  rw [firstOf, tested_enterPhaseTwo] at hfalls habsent
  constructor
  · intro u hu
    exact ((hfalls u hu).agrees (agrees_enterPhaseTwo t)).prepend (pivots_heading t)
  · intro hnone
    simpa using habsent hnone

/-- From a non-negative right-hand side no pivot of a run makes a right-hand side negative, and none
raises the objective of its phase. -/
theorem descent_of_exact (hpar : par.ExactPivots) (hε : (Scalar.epsilon : K) = 0)
    (hmax : 0 < (Scalar.maxValue : K)) (hstart : ofStandardForm? a b c = .ok t)
    (hbelow : ∀ u ∈ tested par par.maxIter t, u.RatiosBelowMax par) : Descent par t := by
  have hnonneg : ∀ r < a.rows, 0 ≤ b.get r 0 := by
    obtain ⟨-, -, hguard⟩ := Checked.bind_eq_ok_iff.1 hstart
    exact fun r hr => (guarded_eq_ok_iff.1 hguard).1 r (List.mem_range.2 hr)
  obtain rfl := eq_of_ofStandardForm? hstart
  have hadm : Admissible a b c (ofStandardForm a b c) := admissible_ofStandardForm hnonneg
  have hway := underway_ofStandardForm a b c
  have hcount : (ofStandardForm a b c).iterations = 0 := rfl
  have hm : (ofStandardForm a b c).m = a.rows := rfl
  generalize ofStandardForm a b c = t at *
  have htested : ∀ u ∈ tested par par.maxIter t, Admissible a b c u :=
    forall_mem_tested (Admissible a b c) (fun _ hu => hu.enterPhaseTwo hpar.toExactRatios)
      (fun _ _ _ hu hnext => hu.advance hpar.toExactRatios hε hnext) par.maxIter hadm
  have hfalls := hadm.fallsFrom_solve hpar hε hway hcount
  have hrun := run_sound hpar hε hmax hadm hway hbelow
  have hinfeasible := run_lacks_column hpar hε hmax hadm hway hbelow
  rw [← solve_eq_run par hcount] at hrun hinfeasible
  constructor
  case rhs_nonneg =>
    intro u hmem r hr
    have hu : Admissible a b c u := by
      rcases List.mem_cons.1 hmem with rfl | hmem
      · exact hadm
      rcases List.mem_cons.1 hmem with rfl | hmem
      · exact hrun.1
      · exact htested u hmem
    exact hu.rhs_nonneg r (by rwa [hu.represents.m_eq, ← hm])
  case lowers => exact fun u hmem row col hnext => (htested u hmem).lowers hpar hε hnext
  case start => exact fun u => firstOf_phaseOne
  case fallsFrom => exact hfalls
  case pairwise => exact fun phase u hu => ((hfalls phase).falls u hu).pairwise
  case exists_leavingRow =>
    exact fun u hmem hphase col hentering =>
      (htested u hmem).exists_leavingRow hpar hε hmax (hbelow u hmem) hphase hentering
  case infeasible => exact hinfeasible

/-- Minimise `x₀ + x₁` subject to `x₀ + x₁ + x₂ = 2` and `x₀ - x₁ = 0`. The first pivot is made on
the second row, whose right-hand side is zero, and leaves the sum of the artificial variables as it
is; the second one ends the first phase, and the third one lowers the cost from two to zero. -/
theorem descent_of_exact_sample :
    letI := Exact.rational 1000
    let par : Params ℚ := ⟨10, 10, 0, 0, ⟨0, 0⟩, ⟨0, 0⟩, ⟨0, 0⟩, ⟨0, 0⟩⟩
    let a : Mat ℚ := ⟨.general 2 3, #[1, 1, 1, -1, 1, 0], rfl⟩
    let b : Mat ℚ := ⟨.general 2 1, #[2, 0], rfl⟩
    let c : Mat ℚ := ⟨.general 3 1, #[1, 1, 0], rfl⟩
    ∃ t, ofStandardForm? a b c = .ok t ∧ t.objective = 2 ∧
      Trace.objectives .one (t.solve par).2.events = [2, 0] ∧
      (firstOf par 10 .two t).map objective = some 2 ∧
      Trace.objectives .two (t.solve par).2.events = [0] ∧ Descent par t := by
  let := Exact.rational 1000
  intro par a b c
  have hpar : par.ExactPivots := ⟨⟨⟨rfl, rfl⟩, ⟨rfl, rfl⟩⟩, le_refl 0⟩
  have hstart : ofStandardForm? a b c = .ok (ofStandardForm a b c) :=
    ofStandardForm?_eq_ok (by decide +kernel) rfl rfl (by decide +kernel)
  have hbelow :
      (tested par 10 (ofStandardForm a b c)).all (fun u => u.RatiosBelowMax par) = true := by
    decide +kernel
  refine ⟨_, hstart, by decide +kernel, by decide +kernel, by decide +kernel, by decide +kernel, ?_⟩
  exact descent_of_exact hpar rfl (by decide +kernel) hstart (by simpa using hbelow)

end Tableau

end QuadProg
