import QuadProg.Proofs.ActiveSet.Initialise

/-!
# Drift

With tolerances other than zero a run starts at a point that may violate a constraint by a little. A
step towards the active rows does not make that worse, since along it the difference to a bound
falls in proportion. An inequality outside of the working set limits the step, unless the ratio test
leaves it out: its growth is negligible next to the length of the move, or its slack is negative and
not negligible. A step over such an inequality (`Oversteps`) and a start by a tableau that is out of
order (`OutOfOrder`) are the only ways by which a run gets to a point that the test of the
constraints rejects.
-/

namespace QuadProg

open Finset

namespace Tableau

/-- A basic variable is negative, or an artificial one above the tolerance. -/
def OutOfOrder {α : Type} [Scalar α] (tolerance : α) (t : Tableau α) : Prop :=
  ∃ r < t.m, t.rhs r < 0 ∨ t.isArtificial r = true ∧ tolerance < t.rhs r

variable {K : Type} [Field K] [LinearOrder K] [IsStrictOrderedRing K] [Exact K]
variable {a b c : Mat K} {t : Tableau K} {tolerance : K}

theorem basicPoint_nonneg_of_order (h : ¬ t.OutOfOrder tolerance) (j : ℕ) : 0 ≤ t.basicPoint j := by
  unfold basicPoint place
  refine sum_nonneg fun r hr => ?_
  split
  · by_contra hneg
    exact h ⟨r, mem_range.1 hr, Or.inl (not_le.1 hneg)⟩
  · exact le_rfl

omit [IsStrictOrderedRing K] in
theorem basicPoint_artificial_le (h : Represents a b c t) (hb : t.Bookkept)
    (horder : ¬ t.OutOfOrder tolerance) (htolerance : 0 ≤ tolerance) {i : ℕ} (hi : i < t.m) :
    t.basicPoint (t.n + i) ≤ tolerance := by
  rw [basicPoint, h.place_artificial hb _ hi]
  split
  · next hart =>
    by_contra hgt
    exact horder ⟨i, hi, Or.inr ⟨hart, not_le.1 hgt⟩⟩
  · exact htolerance

end Tableau

namespace ActiveSet

variable {K : Type} [Field K] [LinearOrder K] [IsStrictOrderedRing K] [Exact K]
variable {par : Params K} {p : QuadraticProgram K} {s s₀ : State K}

/-! ## Targets -/

/-- The program with the lower triangle of the quadratic term mirrored. The factor reads no more of
that term. -/
def mirrored (p : QuadraticProgram K) : QuadraticProgram K :=
  { p with q := .ofFn (.general p.n p.n) fun r c => if c ≤ r then p.q.get r c else p.q.get c r }

omit [IsStrictOrderedRing K] in
theorem get_mirrored (p : QuadraticProgram K) (r c : ℕ) : (mirrored p).q.get r c =
    if r < p.n ∧ c < p.n then if c ≤ r then p.q.get r c else p.q.get c r else 0 :=
  Mat.get_ofFn_eq_ite _ _ _ _ _

omit [IsStrictOrderedRing K] in
theorem isSymm_mirrored (p : QuadraticProgram K) : (mirrored p).q.IsSymm := by
  intro r c
  rw [get_mirrored, get_mirrored]
  by_cases hrc : r < p.n ∧ c < p.n
  · rw [if_pos hrc, if_pos hrc.symm]
    rcases lt_trichotomy r c with hlt | rfl | hgt
    · rw [if_neg hlt.not_ge, if_pos hlt.le]
    · rfl
    · rw [if_pos hgt.le, if_neg hgt.not_ge]
  · rw [if_neg hrc, if_neg fun h => hrc h.symm]

omit [IsStrictOrderedRing K] in
theorem wellSized_mirrored (hp : p.WellSized) : (mirrored p).WellSized :=
  ⟨rfl, rfl, hp.c_cols, hp.ae_cols, hp.be_rows, hp.be_cols, hp.ai_cols, hp.bi_rows, hp.bi_cols⟩

omit [IsStrictOrderedRing K] in
theorem factored_mirrored {l : Mat K} (h : Cholesky.Factored p.q l p.n p.n) :
    Cholesky.Factored (mirrored p).q l p.n p.n := by
  refine ⟨h.shape, h.diag_pos, fun c hc r hcr hr => ?_, fun r c hc => ?_⟩
  · rw [h.product c hc r hcr hr, get_mirrored, if_pos ⟨hr, hc⟩, if_pos hcr]
  · rw [get_mirrored, if_neg fun h => absurd h.2 (not_lt.2 hc)]
    refine Mat.get_of_not_contains ?_
    rw [h.shape]
    exact fun hcontains => absurd hcontains.2 (not_lt.2 hc)

section Targets

variable [ExactRoots K]

theorem Computed.remembers_mirrored (h : Computed par p s) (hp : p.WellSized)
    (hthreshold : 0 ≤ par.zeroThreshold) : Remembers (mirrored p) s := by
  have hfactor : ∀ l, s.cholesky.factor = some l →
      Cholesky.Factored (mirrored p).q l p.n p.n :=
    fun l hl => factored_mirrored (factored_of_compute hp hthreshold (h.cholesky ▸ hl))
  have hfree : Remembers (mirrored p) { s with minimizer := none } :=
    ⟨hfactor, fun _ hm => (nomatch hm), h.threshold ▸ hthreshold⟩
  refine ⟨hfactor, fun m hm j hj => ?_, h.threshold ▸ hthreshold⟩
  rw [(hfree.lhs_solveVec (wellSized_mirrored hp) (isSymm_mirrored p) (h.minimizer m hm)).2 j hj]
  exact Mat.entry_data hp.c_cols hj

/-- The target of a subproblem is a point on the active rows, whether or not the quadratic term is
symmetric. -/
structure OnRows (p : QuadraticProgram K) (active : List ℕ) (x : Vec K) : Prop where
  size_x : x.size = p.n
  equality : ∀ r < p.me, p.ae.lhs r x.entry = p.be.get r 0
  tight : ∀ i ∈ active, p.ai.lhs i x.entry = p.bound i

omit [IsStrictOrderedRing K] [ExactRoots K] in
theorem SolvesRows.onRows {active : List ℕ} {t : Target K} (h : SolvesRows p active t) :
    OnRows p active t.x := by
  refine ⟨h.size_x, h.equality, fun i hi => ?_⟩
  obtain ⟨k, hk, rfl⟩ := exists_getD_eq hi
  exact h.tight k hk

theorem onRows_of_subproblem (hs : Computed par p s) (hp : p.WellSized)
    (hthreshold : 0 ≤ par.zeroThreshold) {active : List ℕ} {attempt : Attempt K}
    (h : subproblem? p s active = .ok attempt) {t : Target K} (ht : attempt.target = some t) :
    OnRows p active t.x := by
  have hmirrored := hs.remembers_mirrored hp hthreshold
  have hsymm := isSymm_mirrored p
  have hp' := wellSized_mirrored hp
  obtain ⟨a, b, hrows, hroute⟩ := subproblem_cases hp h
  -- The rows of the mirrored program are those of the program.
  have hrows' : HoldsRows (mirrored p) active a b :=
    ⟨hrows.rows, hrows.cols, hrows.equality, hrows.inequality, hrows.b_rows, hrows.b_cols,
      hrows.b_equality, hrows.b_inequality⟩
  rcases hroute with ⟨hzero, -, -, x, hx, htarget⟩ | ⟨hsome, hschur, -⟩ | ⟨lu, hlu, hkkt⟩
  · obtain rfl := Option.some.inj (htarget.symm.trans ht)
    have hnone := hrows.rows
    refine ⟨(hmirrored.lhs_solveVec hp' hsymm hx).1, fun r hr => by omega, fun i hi => ?_⟩
    have hlength : active.length = 0 := by omega
    rw [List.length_eq_zero_iff.1 hlength] at hi
    cases hi
  · have hsolves := (solves_of_schur hmirrored hp' hsymm hrows' hsome hschur ht).onRows
    exact ⟨hsolves.size_x, hsolves.equality, hsolves.tight⟩
  · exact (solves_of_kkt hp hrows (hlu.symm ▸ hs.threshold ▸ hthreshold) hkkt ht).onRows

end Targets

/-! ## Steps -/

omit [IsStrictOrderedRing K] in
theorem isFeasible?_eq_true_iff (hp : p.WellSized) {x : Vec K} :
    isFeasible? par p x = .ok true ↔ x.size = p.n ∧ IsNear par p x.entry := by
  constructor
  · intro h
    refine ⟨?_, (accepted_iff h).1 rfl⟩
    obtain ⟨_, hvalues, -⟩ := Checked.bind_eq_ok_iff.1 h
    exact (guarded_eq_ok_iff.1 hvalues).1.trans hp.ae_cols
  · rintro ⟨hsize, hnear⟩
    obtain ⟨accepted, h⟩ := isFeasible_total par hp hsize
    rw [h, (accepted_iff h).2 hnear]

/-- The ratio test leaves the inequality `i` out although the move `dx` from `x` makes its left-hand
side grow: the growth is negligible next to the length of the move, or the slack is negative and not
negligible next to the growth. -/
def PassesOver (par : Params K) (p : QuadraticProgram K) (x dx : Vec K) (i : ℕ) : Prop :=
  0 < p.ai.lhs i dx.entry ∧ (par.solution.isSmall dx.norm (p.ai.lhs i dx.entry) = true ∨
    p.bound i < p.ai.lhs i x.entry ∧
      par.slack.isSmall (p.ai.lhs i dx.entry) (p.bound i - p.ai.lhs i x.entry) = false)

/-- The point `y` lies on a move from `x` that the ratio test did not limit by the inequality `i`,
and `y` violates this inequality. -/
def Oversteps (par : Params K) (p : QuadraticProgram K) (x y : Vec K) (i : ℕ) : Prop :=
  ∃ dx length, y = Vec.addScaled length dx x ∧ 0 < length ∧ length ≤ 1 ∧ PassesOver par p x dx i ∧
    p.bound i < p.ai.lhs i y.entry ∧ par.slack.differ (p.bound i) (p.ai.lhs i y.entry) = true

theorem mul_le_of_le_stepRatio {slack growth a : K} (ha : 0 < a) (hgrows : 0 < growth)
    (hle : a ≤ stepRatio par slack growth) : a * growth ≤ slack := by
  unfold stepRatio at hle
  split at hle
  · exact absurd ha (not_lt.2 hle)
  · exact (le_div_iff₀ hgrows).1 hle

/-- Why an inequality whose left-hand side grows does not limit the step. -/
theorem not_limits_cases {length slack growth : K} (hgrows : 0 < growth)
    (h : limitsStep par length slack growth = false) :
    par.solution.isSmall length growth = true ∨
      slack < 0 ∧ par.slack.isSmall growth slack = false := by
  cases hsmall : par.solution.isSmall length growth with
  | true => exact Or.inl rfl
  | false =>
    have hratio : stepRatio par slack growth < 0 := by simpa [limitsStep, hgrows, hsmall] using h
    refine Or.inr ?_
    unfold stepRatio at hratio
    split at hratio
    · exact absurd hratio (lt_irrefl 0)
    · next hkept =>
      refine ⟨?_, Bool.eq_false_of_not_eq_true hkept⟩
      by_contra hnonneg
      exact absurd (div_nonneg (not_lt.1 hnonneg) hgrows.le) (not_le.2 hratio)

/-- A part of a move that is not zero keeps each inequality whose left-hand side grows, unless the
ratio test leaves it out. -/
theorem stride_keeps {x dx : Vec K} {others : List ℕ} {stride : Stride K}
    (h : stride? par p x dx dx.norm others = .ok stride) :
    stride.length ≤ 1 ∧ (0 < stride.length → ∀ i ∈ others, 0 < p.ai.lhs i dx.entry →
      p.ai.lhs i x.entry + stride.length * p.ai.lhs i dx.entry ≤ p.bound i ∨
        PassesOver par p x dx i) := by
  unfold stride? at h
  split at h
  · next hempty =>
    obtain rfl := Except.ok.inj h
    rw [List.isEmpty_iff.1 hempty]
    exact ⟨le_rfl, fun _ i hi => nomatch hi⟩
  · obtain ⟨slacks, hslacks, h⟩ := Checked.bind_eq_ok_iff.1 h
    obtain ⟨growths, hgrowths, h⟩ := Checked.bind_eq_ok_iff.1 h
    obtain rfl := Except.ok.inj h
    refine ⟨Selection.bound_foldl_le _, fun hpos i hi hgrows => ?_⟩
    obtain ⟨k, hk, rfl⟩ := exists_getD_eq hi
    have hslack := entry_slacks hslacks hk
    have hgrowth := (entry_bodies hgrowths).2 k hk
    rw [← hgrowth] at hgrows
    cases hlimits : limitsStep par dx.norm (slacks.entry k) (growths.entry k) with
    | true =>
      have hle : (Selection.least 1 (fun k => limitsStep par dx.norm (slacks.entry k)
          (growths.entry k)) (fun k => stepRatio par (slacks.entry k) (growths.entry k))
          (List.range others.length)).bound ≤ stepRatio par (slacks.entry k) (growths.entry k) :=
        Selection.bound_foldl_le_value _ (List.mem_range.2 hk) hlimits
      have hused := mul_le_of_le_stepRatio hpos hgrows hle
      rw [hslack, hgrowth] at hused
      exact Or.inl (by linarith)
    | false =>
      have hcases := not_limits_cases hgrows hlimits
      rw [hslack, hgrowth, sub_neg] at hcases
      exact Or.inr ⟨hgrowth ▸ hgrows, hcases⟩

omit [Exact K] in
/-- A part of the way from `v` to `b` leads between them. -/
theorem part_mem_uIcc {b v a : K} (h₀ : 0 ≤ a) (h₁ : a ≤ 1) : v + a * (b - v) ∈ Set.uIcc b v :=
  (convex_uIcc b v).add_smul_sub_mem Set.right_mem_uIcc Set.left_mem_uIcc ⟨h₀, h₁⟩

theorem near_of_part (hslack : par.slack.IsProper) {b v a : K} (h₀ : 0 ≤ a) (h₁ : a ≤ 1)
    (hv : v ≤ b ∨ par.slack.differ b v = false) :
    v + a * (b - v) ≤ b ∨ par.slack.differ b (v + a * (b - v)) = false := by
  rcases hv with hle | hnear
  · exact Or.inl ((part_mem_uIcc h₀ h₁).2.trans_eq (sup_eq_left.2 hle))
  · exact Or.inr (hslack.differ_between hnear (part_mem_uIcc h₀ h₁))

theorem near_of_le (hslack : par.slack.IsProper) {b v w : K} (hw : w ≤ v)
    (hv : v ≤ b ∨ par.slack.differ b v = false) : w ≤ b ∨ par.slack.differ b w = false := by
  rcases hv with hle | hnear
  · exact Or.inl (hw.trans hle)
  · rcases le_total w b with hbelow | habove
    · exact Or.inl hbelow
    · exact Or.inr (hslack.differ_between hnear (Set.mem_uIcc.2 (Or.inl ⟨habove, hw⟩)))

/-- On the way to a point on the active rows the equality constraints and the active inequalities
stay near, so that only the other inequalities are in question. -/
theorem isNear_of_part (hslack : par.slack.IsProper) (hp : p.WellSized) {x y dx : Vec K}
    {target : Target K} (hx : x.size = p.n) (hnear : IsNear par p x.entry)
    (hcount : s.working.count = p.mi) (ht : OnRows p s.working.members target.x)
    (hdx : dx = Vec.addScaled (-1) x target.x) {a : K} (hy : y = Vec.addScaled a dx x)
    (h₀ : 0 ≤ a) (h₁ : a ≤ 1) (hothers : ∀ i ∈ s.working.others, p.ai.lhs i y.entry ≤ p.bound i ∨
      par.slack.differ (p.bound i) (p.ai.lhs i y.entry) = false) : IsNear par p y.entry := by
  have hlhs : ∀ (m : Mat K) (r : ℕ), m.cols = p.n →
      m.lhs r y.entry = m.lhs r x.entry + a * (m.lhs r target.x.entry - m.lhs r x.entry) := by
    intro m r hm
    rw [hy, Mat.lhs_addScaled (by omega), hdx, Mat.lhs_addScaled (by rw [ht.size_x, hm]),
      neg_one_mul, sub_eq_add_neg]
  -- The target attains the bounds of these rows, so what is left of a difference shrinks.
  refine ⟨fun r hr => ?_, fun i hi => ?_⟩
  · rw [hlhs p.ae r hp.ae_cols, ht.equality r hr]
    exact hslack.differ_between (hnear.equality r hr) (part_mem_uIcc h₀ h₁)
  · cases hmember : s.working.contains i with
    | true =>
      rw [hlhs p.ai i hp.ai_cols, ht.tight i (WorkingSet.mem_members.2 hmember)]
      exact near_of_part hslack h₀ h₁ (hnear.inequality i hi)
    | false => exact hothers i (WorkingSet.mem_others.2 ⟨by rw [hcount]; exact hi, hmember⟩)

/-- A step keeps an accepted point accepted, or it oversteps an inequality. -/
theorem accepted_or_oversteps_of_step (hslack : par.slack.IsProper) (hp : p.WellSized)
    (hcount : s.working.count = p.mi) (hs : isFeasible? par p s.x = .ok true) {target : Target K}
    (ht : OnRows p s.working.members target.x) {stage : Stage K}
    (h : takeStep? par p s s.working.members target = .ok stage) :
    isFeasible? par p stage.state.x = .ok true ∨
      ∃ i < p.mi, Oversteps par p s.x stage.state.x i := by
  obtain ⟨hsize, hnear⟩ := (isFeasible?_eq_true_iff hp).1 hs
  obtain ⟨-, -, ⟨-, hstate⟩ | ⟨-, stride, hstride, hstate⟩⟩ := takeStep_cases h
  · rw [hstate]
    exact Or.inl hs
  rw [hstate]
  dsimp only
  split
  case isFalse => exact Or.inl hs
  case isTrue hpos =>
  obtain ⟨hone, hkeeps⟩ := stride_keeps hstride
  set dx := Vec.addScaled (-1) s.x target.x with hdx
  set y := Vec.addScaled stride.length dx s.x with hy
  by_cases hover : ∃ i < p.mi, Oversteps par p s.x y i
  · exact Or.inr hover
  refine Or.inl ((isFeasible?_eq_true_iff hp).2 ⟨(Vec.size_addScaled ..).trans hsize,
    isNear_of_part hslack hp hsize hnear hcount ht hdx hy hpos.le hone fun i hother => ?_⟩)
  have hi : i < p.mi := (WorkingSet.mem_others.1 hother).1.trans_eq hcount
  have hlhs : p.ai.lhs i y.entry = p.ai.lhs i s.x.entry + stride.length * p.ai.lhs i dx.entry :=
    Mat.lhs_addScaled (by rw [hp.ai_cols, hsize]) i _ _
  rcases le_or_gt (p.ai.lhs i dx.entry) 0 with hfalls | hgrows
  · refine near_of_le hslack ?_ (hnear.inequality i hi)
    linarith [mul_nonpos_of_nonneg_of_nonpos hpos.le hfalls]
  · rcases hkeeps hpos i hother hgrows with hkept | hpasses
    · exact Or.inl (hlhs.trans_le hkept)
    · by_contra hviolated
      obtain ⟨hgt, hdiffer⟩ := not_or.1 hviolated
      exact hover ⟨i, hi, dx, stride.length, hy, hpos, hone, hpasses, not_le.1 hgt,
        Bool.eq_true_of_not_eq_false hdiffer⟩

/-! ## Runs -/

section Runs

variable [ExactRoots K]

theorem accepted_or_oversteps_of_iterate (hslack : par.slack.IsProper)
    (hthreshold : 0 ≤ par.zeroThreshold) (hp : p.WellSized) (hprepared : Prepared par p s)
    (hs : isFeasible? par p s.x = .ok true) {moved : Stage K}
    (h : iterate? par p s = .ok moved) :
    isFeasible? par p moved.state.x = .ok true ∨
      ∃ i < p.mi, Oversteps par p s.x moved.state.x i := by
  obtain ⟨s', hshrunk, hattempt⟩ := iterate_cases h
  have hx : s'.x = s.x := hshrunk.x
  have hprepared' := hprepared.unblocked.shrunk hshrunk
  rw [← hx] at hs ⊢
  generalize moved.state = s'' at *
  cases hattempt with
  | stepped outcome target stage solved found step =>
    have htarget := onRows_of_subproblem hprepared'.toComputed hp hthreshold solved found
    exact accepted_or_oversteps_of_step (s := { s' with lu := outcome.lu }) hslack hp
      hprepared'.count hs htarget step
  | stuck outcome feasible solved unsolvable empty test => exact Or.inl hs
  | exhausted outcome solved nonempty => exact Or.inl hs

/-- On a run from `s₀` an iteration leads from an accepted point over an inequality. -/
def Drifts (par : Params K) (p : QuadraticProgram K) (s₀ : State K) : Prop :=
  ∃ s moved, Reached par p s₀ s ∧ isFeasible? par p s.x = .ok true ∧
    iterate? par p s = .ok moved ∧ ∃ i < p.mi, Oversteps par p s.x moved.state.x i

/-- A run keeps an accepted point accepted, or it drifts. -/
theorem accepted_of_reached (hslack : par.slack.IsProper) (hthreshold : 0 ≤ par.zeroThreshold)
    (hp : p.WellSized) (hprepared : Prepared par p s₀) (hs₀ : isFeasible? par p s₀.x = .ok true)
    (hstays : ¬ Drifts par p s₀) (h : Reached par p s₀ s) : isFeasible? par p s.x = .ok true := by
  induction h with
  | start => exact hs₀
  | next reached iterated usable exchanged goesOn ih =>
    rw [(exchange_cases exchanged).x]
    rcases accepted_or_oversteps_of_iterate hslack hthreshold hp
      (hprepared.reached reached) ih iterated with haccepted | hover
    · exact haccepted
    · exact absurd ⟨_, _, reached, ih, iterated, hover⟩ hstays

theorem accepted_of_ended (hslack : par.slack.IsProper) (hthreshold : 0 ≤ par.zeroThreshold)
    (hp : p.WellSized) (hprepared : Prepared par p s₀) (hs₀ : isFeasible? par p s₀.x = .ok true)
    (hstays : ¬ Drifts par p s₀) (h : Ended par p s₀ s) (hfeasible : s.status.isFeasible = true) :
    isFeasible? par p s.x = .ok true := by
  have hreached := fun s (hs : Reached par p s₀ s) =>
    accepted_of_reached hslack hthreshold hp hprepared hs₀ hstays hs
  cases h with
  | limit reached => exact hreached _ reached
  | @failed s moved reached iterated failure =>
    have hfeasible : moved.state.status.isFeasible = true := hfeasible
    rw [Status.isFeasible_of_isFailure failure] at hfeasible
    cases hfeasible
  | finished reached iterated usable exchanged ends =>
    rw [(exchange_cases exchanged).x]
    rcases accepted_or_oversteps_of_iterate hslack hthreshold hp
      (hprepared.reached reached) (hreached _ reached) iterated with haccepted | hover
    · exact haccepted
    · exact absurd ⟨_, _, reached, hreached _ reached, iterated, hover⟩ hstays

end Runs

/-! ## Starts -/

/-- No offered point is accepted, and the final tableau of the search for a start is out of order.
-/
def StartsOutOfOrder (par : Params K) (p : QuadraticProgram K) (offer : Option (Vec K)) : Prop :=
  (∀ x, offer = some x → isFeasible? par p x = .ok false) ∧
    ∃ t, startTableau? p offer = .ok t ∧ (t.solve par).1.OutOfOrder par.slack.absolute

/-- The basic solution of a tableau that is in order satisfies each row of the linear program up to
the tolerance. -/
theorem abs_residual_le {c : Mat K} {t : Tableau K} {tolerance : K} (hp : p.WellSized)
    (h : Tableau.Represents (signedRows (startMatrix p) (p.be.above p.bi)).a
      (signedRows (startMatrix p) (p.be.above p.bi)).b c t) (hb : t.Bookkept)
    (horder : ¬ t.OutOfOrder tolerance) (htolerance : 0 ≤ tolerance) {r : ℕ}
    (hr : r < p.me + p.mi) :
    |(p.be.above p.bi).get r 0 - (startMatrix p).lhs r t.basicPoint| ≤ tolerance := by
  have hm : t.m = p.me + p.mi := h.m_eq
  have hrow := h.lhs_basicPoint hb r (by omega)
  rw [lhs_signedRows (m := p.me + p.mi) rfl hr, get_signedRows_b (shape_bounds hp) hr] at hrow
  have hle := Tableau.basicPoint_artificial_le h hb horder htolerance (i := r) (by omega)
  have hnonneg := Tableau.basicPoint_nonneg_of_order horder (t.n + r)
  rw [abs_le]
  unfold rowSign at hrow
  split at hrow
  · constructor <;> linarith
  · constructor <;> linarith

/-- The point of a tableau in order is accepted: a row is off by its artificial variable, and an
inequality by no more than that upwards. -/
theorem accepted_pointOf (hslack : par.slack.IsProper) (hp : p.WellSized) {x : Vec K}
    (hx : x.size = p.n) {t : Tableau K} {c : Mat K}
    (h : Tableau.Represents (signedRows (startMatrix p) (p.be.above p.bi)).a
      (signedRows (startMatrix p) (p.be.above p.bi)).b c t) (hb : t.Bookkept)
    (horder : ¬ t.OutOfOrder par.slack.absolute) :
    isFeasible? par p (pointOf p.n t.point x) = .ok true := by
  have hn : t.n = p.n + p.n + p.mi := h.n_eq
  have hpoint : ∀ j < p.n, (pointOf p.n t.point x).entry j =
      t.basicPoint j - t.basicPoint (p.n + j) := by
    intro j hj
    rw [entry_pointOf hj (by rw [hx]; exact hj), h.entry_point hb (by omega),
      h.entry_point hb (by omega)]
  have hresidual := fun r hr => abs_residual_le (r := r) hp h hb horder hslack.absolute_nonneg hr
  refine (isFeasible?_eq_true_iff hp).2 ⟨(Array.size_mapIdx ..).trans hx, fun r hr => ?_,
    fun i hi => ?_⟩
  · refine Tolerance.differ_eq_false_iff.2 (Or.inl ?_)
    have hrow := hresidual r (by omega)
    rw [lhs_startMatrix_equality hp hr, get_bounds_equality hp hr] at hrow
    rwa [Mat.lhs_congr fun j hj => hpoint j (by rwa [← hp.ae_cols])]
  · have hrow := hresidual (p.me + i) (by omega)
    have hfree := Tableau.basicPoint_nonneg_of_order horder (p.n + p.n + i)
    rw [lhs_startMatrix_inequality hp hi, get_bounds_inequality hp hi, abs_le] at hrow
    rw [Mat.lhs_congr fun j hj => hpoint j (by rwa [← hp.ai_cols])]
    rcases le_or_gt (p.ai.lhs i fun j => t.basicPoint j - t.basicPoint (p.n + j)) (p.bound i) with
      hbelow | habove
    · exact Or.inl hbelow
    · refine Or.inr (Tolerance.differ_eq_false_iff.2 (Or.inl ?_))
      rw [abs_le]
      constructor <;> linarith

/-- A point that the linear program finds is accepted, or the final tableau is out of order. -/
theorem accepted_of_searchByProgram (hproblem : par.problem.IsProper) (hslack : par.slack.IsProper)
    (hp : p.WellSized) (hx : s.x.size = p.n) {offer : Option (Vec K)} {found : Search K}
    (h : searchByProgram? par p s offer = .ok found) (hfound : found.status = .feasible)
    (horder : ∀ t, startTableau? p offer = .ok t →
      ¬ (t.solve par).1.OutOfOrder par.slack.absolute) :
    isFeasible? par p found.state.x = .ok true := by
  obtain ⟨t, ht, h⟩ := Checked.bind_eq_ok_iff.1 h
  replace horder := horder t ht
  obtain ⟨c, rfl, -⟩ := startTableau_cases ht
  dsimp only at h
  split at h
  · obtain ⟨hrep, hkept⟩ := Tableau.represents_run hproblem
      (Tableau.represents_ofStandardForm (signedRows (startMatrix p) (p.be.above p.bi)).a
        (signedRows (startMatrix p) (p.be.above p.bi)).b c)
      (Tableau.bookkept_ofStandardForm _ _ c) par.maxIter
    obtain ⟨_, -, h⟩ := Checked.bind_eq_ok_iff.1 h
    obtain rfl := Except.ok.inj h
    rw [Tableau.solve_eq_run par rfl] at horder ⊢
    exact accepted_pointOf hslack hp hx hrep hkept horder
  · obtain rfl := Except.ok.inj h
    dsimp only at hfound
    split at hfound <;> cases hfound

theorem accepted_of_searchAnew (hproblem : par.problem.IsProper) (hslack : par.slack.IsProper)
    (hp : p.WellSized) (hx : s.x.size = p.n) {offer : Option (Vec K)} {found : Search K}
    (h : searchAnew? par p s offer = .ok found) (hfound : found.status = .feasible)
    (horder : ∀ t, startTableau? p offer = .ok t →
      ¬ (t.solve par).1.OutOfOrder par.slack.absolute) :
    isFeasible? par p found.state.x = .ok true := by
  unfold searchAnew? at h
  split at h
  · exact accepted_of_searchByProgram hproblem hslack hp hx h hfound horder
  · next hfree =>
    obtain rfl := Except.ok.inj h
    have hnone : ¬ 0 < p.me + p.mi := fun hpos => hfree (decide_eq_true hpos)
    exact (isFeasible?_eq_true_iff hp).2
      ⟨Vec.size_zeros _, fun r hr => by omega, fun i hi => by omega⟩

theorem accepted_of_search (hproblem : par.problem.IsProper) (hslack : par.slack.IsProper)
    (hp : p.WellSized) (hx : s.x.size = p.n) {offer : Option (Vec K)} {found : Search K}
    (h : search? par p s offer = .ok found) (hfound : found.status = .feasible)
    (horder : ¬ StartsOutOfOrder par p offer) : isFeasible? par p found.state.x = .ok true := by
  unfold search? at h
  split at h
  · refine accepted_of_searchAnew hproblem hslack hp hx h hfound fun t ht hout => ?_
    exact horder ⟨fun x hx => (nomatch hx), t, ht, hout⟩
  · next k =>
    obtain ⟨x, hcopy, h⟩ := Checked.bind_eq_ok_iff.1 h
    obtain ⟨hsize, rfl⟩ := guarded_eq_ok_iff.1 hcopy
    obtain ⟨accepted, htest, h⟩ := Checked.bind_eq_ok_iff.1 h
    split at h
    · next haccepted =>
      obtain rfl := Except.ok.inj h
      rw [haccepted] at htest
      exact htest
    · next hrejected =>
      rw [Bool.eq_false_of_not_eq_true hrejected] at htest
      refine accepted_of_searchAnew (s := { s with x := k }) hproblem hslack hp (hsize.trans hx) h
        hfound fun t ht hout => horder ⟨fun x hx => ?_, t, ht, hout⟩
      exact Option.some.inj hx ▸ htest

theorem accepted_of_initialise (hproblem : par.problem.IsProper) (hslack : par.slack.IsProper)
    (hp : p.WellSized) (hx : s.x.size = p.n) {offer : Option (Solution K)} {stage : Stage K}
    (h : initialise? par p offer s = .ok stage) (hfeasible : stage.state.status.isFeasible = true)
    (horder : ¬ StartsOutOfOrder par p (usableOffer p offer)) :
    isFeasible? par p stage.state.x = .ok true := by
  obtain ⟨found, hsearch, ⟨hfound, hprepare⟩ | ⟨hfailure, -⟩⟩ := initialise_cases h
  · rw [(samePoint_of_prepare hprepare).x]
    exact accepted_of_search
      (s := { s with cholesky := s.cholesky.compute p.q, working := s.working.clear })
      hproblem hslack hp hx hsearch hfound horder
  · rw [Status.isFeasible_of_isFailure hfailure] at hfeasible
    cases hfeasible

end ActiveSet

namespace QuadraticProgram

open ActiveSet

variable {K : Type} [Field K] [LinearOrder K] [IsStrictOrderedRing K] [Exact K] [ExactRoots K]

/-- A solution that counts as feasible has a point that the test of the constraints accepts,
whatever point was offered and however many iterations were made, unless the run started from a
tableau out of order or drifted. -/
theorem solution_accepted (par : Params K) (p : QuadraticProgram K) (offer : Option (Solution K))
    (hp : p.IsBuilt) (hproblem : par.problem.IsProper) (hslack : par.slack.IsProper)
    (hthreshold : 0 ≤ par.zeroThreshold) {out : Outcome K} {sol : Solution K}
    (h : p.solve? par offer = .ok out) (hsol : out.result = .ok sol)
    (hfeasible : sol.status.isFeasible = true) :
    ActiveSet.isFeasible? par p sol.x = .ok true ∨ StartsOutOfOrder par p (usableOffer p offer) ∨
      ∃ stage, initialise? par p offer (start par p).state = .ok stage ∧
        Drifts par p stage.state := by
  obtain ⟨hcheck, stage, s, hstage, hlast, hs, hx, -⟩ := solve_cases h hsol
  have hsized := hp.wellSized hcheck
  rw [hs] at hfeasible
  rw [hx]
  by_cases horder : StartsOutOfOrder par p (usableOffer p offer)
  · exact Or.inr (Or.inl horder)
  by_cases hdrifts : Drifts par p stage.state
  · exact Or.inr (Or.inr ⟨stage, hstage, hdrifts⟩)
  refine Or.inl ?_
  rcases hlast with ⟨hstart, last, rfl, hloop⟩ | ⟨hfailure, rfl⟩
  · have hprepared := prepared_initialise hstage hstart
    have haccepted := accepted_of_initialise hproblem hslack hsized (Vec.size_zeros p.n) hstage
      hstart horder
    exact accepted_of_ended hslack hthreshold hsized hprepared haccepted hdrifts
      (ended_of_loop .start hloop) hfeasible
  · rw [hfailure] at hfeasible
    cases hfeasible

/-- How the standard tolerances decide where the run on the sample asks them. -/
theorem gentleSample_tolerances :
    letI := Exact.real 1000
    ((Params.standard : Params ℝ).solution.isSmall 0 400000000000 = false ∧
      (Params.standard : Params ℝ).solution.isSmall 400000000000 4 = true) ∧
    ((Params.standard : Params ℝ).slack.differ 1 0 = true ∧
      (Params.standard : Params ℝ).slack.differ 1 4 = true) ∧
    (Params.standard : Params ℝ).zeroThreshold < 1 := by
  let := Exact.real 1000
  have htenth : ∀ k, (Scalar.tenth k : ℝ) = 1 / (10 ^ k * 10 ^ k) := by
    intro k
    rw [← Scalar.tenPow_eq_pow]
    rfl
  refine ⟨⟨?_, ?_⟩, ⟨?_, ?_⟩, ?_⟩
  · norm_num [Params.standard, Tolerance.isSmall, Tolerance.isZero, htenth]
  · norm_num [Params.standard, Tolerance.isSmall, Tolerance.isZero, htenth]
  · norm_num [Params.standard, Tolerance.differ, htenth]
  · norm_num [Params.standard, Tolerance.differ, htenth]
  · norm_num [Params.standard, htenth]

/-- The origin is accepted, the point four times as far as the bound is not. -/
theorem accepted_gentleSample :
    letI := Exact.real 1000
    ActiveSet.isFeasible? briefParams gentleSample #[0] = .ok true ∧
      ActiveSet.isFeasible? briefParams gentleSample #[400000000000] = .ok false := by
  let := Exact.real 1000
  obtain ⟨-, ⟨-, hviolated⟩, -⟩ := gentleSample_tolerances
  have hgrowth : (1 / 100000000000 : ℝ) * 400000000000 = 4 := by norm_num
  have hfar : decide ((4 : ℝ) ≤ 1) = false := decide_eq_false (by norm_num)
  refine ⟨(isFeasible?_halfLine briefParams 0).trans ?_,
    (isFeasible?_halfLine briefParams _).trans ?_⟩
  · rw [mul_zero, decide_eq_true zero_le_one]
    rfl
  · rw [hgrowth, hfar]
    exact congrArg (fun differs => Except.ok (false || !differs)) hviolated

theorem solve_gentleSample :
    letI := Exact.real 1000
    ∃ out sol, gentleSample.solve? briefParams (some sampleOffer) = .ok out ∧ out.result = .ok sol ∧
      sol.status = .approximate ∧ sol.x = #[400000000000] := by
  let := Exact.real 1000
  have := ExactRoots.real 1000
  obtain ⟨⟨hfar, hsmall⟩, ⟨hloose, hviolated⟩, hpivot⟩ := gentleSample_tolerances
  have hgrowth : (1 / 100000000000 : ℝ) * 400000000000 = 4 := by norm_num
  have hlength : |(400000000000 : ℝ)| = 400000000000 := abs_of_pos (by norm_num)
  have hfactor : briefParams.zeroThreshold * max 1 |(1 : ℝ)| < 1 := by
    rw [abs_one, max_self, mul_one]
    exact hpivot
  -- The growth of the inequality is negligible, so that it does not limit the step.
  have hout : limitsStep briefParams (400000000000 : ℝ) (1 - 0) 4 = false := by
    rw [limitsStep, show briefParams.solution.isSmall 400000000000 4 = true from hsmall,
      Bool.not_true, Bool.and_false]
  obtain ⟨out, sol, hsolve, hsol, hstatus, hx⟩ := solve_overstepping (q := 1)
    (c := 400000000000) (a := 1 / 100000000000) (b := 1) (x := 0)
    (show briefParams.maxIter = 1 from rfl) one_pos hfactor accepted_gentleSample.1
    (by rwa [mul_zero]) (by rwa [div_one, sub_zero, abs_zero, hlength])
    (by rwa [div_one, mul_zero, sub_zero, hlength, hgrowth])
    (by rw [div_one, hgrowth]; norm_num) (by rwa [div_one, hgrowth]) sampleOffer rfl rfl
  exact ⟨out, sol, hsolve, hsol, hstatus, hx.trans (by rw [div_one])⟩

/-- The growth of the inequality is negligible next to the length of the move, so the one iteration
goes all the way to the minimiser. -/
theorem solution_accepted_gentleSample :
    letI := Exact.real 1000
    ∃ out sol, gentleSample.solve? briefParams (some sampleOffer) = .ok out ∧ out.result = .ok sol ∧
      sol.status = .approximate ∧ ActiveSet.isFeasible? briefParams gentleSample sol.x = .ok false ∧
      ∃ stage, initialise? briefParams gentleSample (some sampleOffer)
        (start briefParams gentleSample).state = .ok stage ∧
          Drifts briefParams gentleSample stage.state := by
  let := Exact.real 1000
  have := ExactRoots.real 1000
  obtain ⟨out, sol, hsolve, hsol, hstatus, hx⟩ := solve_gentleSample
  obtain ⟨haccepted, hrejected⟩ := accepted_gentleSample
  rw [← hx] at hrejected
  refine ⟨out, sol, hsolve, hsol, hstatus, hrejected, ?_⟩
  have hcases := solution_accepted briefParams gentleSample (some sampleOffer)
    ⟨_, _, _, _, _, _, rfl⟩ (Tolerance.isProper_tenth 5 7) (Tolerance.isProper_tenth 4 5)
    (Scalar.tenth_pos 6).le hsolve hsol (by rw [hstatus]; rfl)
  rcases hcases with haccept | ⟨hoffer, -⟩ | hdrifts
  · rw [hrejected] at haccept
    cases haccept
  · have hpoint := hoffer #[0] rfl
    rw [haccepted] at hpoint
    cases hpoint
  · exact hdrifts

end QuadraticProgram

end QuadProg
