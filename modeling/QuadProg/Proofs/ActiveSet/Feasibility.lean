import QuadProg.Proofs.ActiveSet.HalfLine

/-!
# Feasible iterates

Without tolerances a run never leaves the feasible points. Every inequality of the working set is
tight at the point, so that a step moves along the active rows; the other inequalities limit the
step before they are violated. Along a step the objective never rises, because its derivative along
the step is zero at the target.
-/

namespace QuadProg

open Finset

namespace ActiveSet

variable {K : Type} [Field K] [LinearOrder K] [Exact K]

/-- The point satisfies the constraints, and what is in the working set, or limited the last step,
is tight there. -/
structure Consistent (p : QuadraticProgram K) (s : State K) : Prop where
  size_x : s.x.size = p.n
  feasible : p.IsFeasible s.x.entry
  tight : ∀ i, s.working.contains i = true → p.ai.lhs i s.x.entry = p.bound i
  blocking : ∀ i, s.blocking = some i → p.ai.lhs i s.x.entry = p.bound i

/-- The objective does not rise from `x` to `y`, and it falls if the quadratic term is positive
definite and the points differ. -/
structure Descends (p : QuadraticProgram K) (x y : Vec K) : Prop where
  le : p.objective y ≤ p.objective x
  lt : p.q.IsPosDef → y ≠ x → p.objective y < p.objective x

variable {par : Params K} {p : QuadraticProgram K} {s s' : State K}

theorem Descends.refl (p : QuadraticProgram K) (x : Vec K) : Descends p x x :=
  ⟨le_rfl, fun _ hne => absurd rfl hne⟩

/-! ## Changes that keep the point -/

theorem Consistent.shrunk (h : Consistent p s) (hs : Shrunk s s') : Consistent p s' := by
  refine ⟨?_, ?_, fun i hi => ?_, fun i hi => ?_⟩
  · rw [hs.x]
    exact h.size_x
  · rw [hs.x]
    exact h.feasible
  · rw [hs.x]
    exact h.tight i (hs.contains i hi)
  · rw [hs.x]
    exact h.blocking i (hs.blocking ▸ hi)

theorem Consistent.unblocked (h : Consistent p s) : Consistent p { s with blocking := none } :=
  ⟨h.size_x, h.feasible, h.tight, fun _ hi => nomatch hi⟩

theorem Consistent.counted (h : Consistent p s) : Consistent p s.counted :=
  ⟨h.size_x, h.feasible, h.tight, h.blocking⟩

/-! ## The ratio test -/

section Stride

variable [IsStrictOrderedRing K] {x dx : Vec K} {length : K} {others : List ℕ} {stride : Stride K}

/-- The least quotient of a slack and the growth of its inequality, or one: a part of the move in
which no slack is used up, and one that limits it is used up entirely. -/
theorem least_quotient_spec (hslack : par.slack.IsExact) (hsolution : par.solution.IsExact)
    (length : K) {slack : ℕ → K} (growth : ℕ → K) {n : ℕ} (hnonneg : ∀ k < n, 0 ≤ slack k) :
    let best := Selection.least 1 (fun k => limitsStep par length (slack k) (growth k))
      (fun k => slack k / growth k) (List.range n)
    (0 ≤ best.bound ∧ best.bound ≤ 1) ∧ (∀ k < n, best.bound * growth k ≤ slack k) ∧
      ∀ k, best.choice = some k → k < n ∧ best.bound * growth k = slack k := by
  intro best
  have hadmits : ∀ k < n, limitsStep par length (slack k) (growth k) = true ↔ 0 < growth k :=
    fun k hk => limitsStep_iff hslack hsolution (hnonneg k hk) _
  have hchoice : ∀ k, best.choice = some k →
      k < n ∧ 0 < growth k ∧ best.bound = slack k / growth k := by
    intro k hk
    obtain ⟨hmem, hadmitted⟩ := Selection.mem_of_choice_least hk
    have hlt := List.mem_range.1 hmem
    exact ⟨hlt, (hadmits k hlt).1 hadmitted, Selection.bound_eq_of_choice_eq_some hk⟩
  have hbound : 0 ≤ best.bound := by
    cases hc : best.choice with
    | none =>
      rw [Selection.bound_eq_of_choice_eq_none hc]
      exact zero_le_one
    | some k =>
      obtain ⟨hlt, hpos, heq⟩ := hchoice k hc
      rw [heq]
      exact div_nonneg (hnonneg k hlt) hpos.le
  refine ⟨⟨hbound, Selection.bound_foldl_le _⟩, fun k hk => ?_, fun k hk => ?_⟩
  · rcases lt_or_ge 0 (growth k) with hpos | hneg
    · have hle : best.bound ≤ slack k / growth k :=
        Selection.bound_foldl_le_value _ (List.mem_range.2 hk) ((hadmits k hk).2 hpos)
      rwa [le_div_iff₀ hpos] at hle
    · exact (mul_nonpos_of_nonneg_of_nonpos hbound hneg).trans (hnonneg k hk)
  · obtain ⟨hlt, hpos, heq⟩ := hchoice k hk
    exact ⟨hlt, by rw [heq, div_mul_cancel₀ _ hpos.ne']⟩

/-- A stride is a part of the move that keeps the inequalities; the one that limits it becomes
tight. -/
theorem stride_spec (hslack : par.slack.IsExact) (hsolution : par.solution.IsExact)
    (hothers : ∀ i ∈ others, p.ai.lhs i x.entry ≤ p.bound i)
    (h : stride? par p x dx length others = .ok stride) :
    0 ≤ stride.length ∧ stride.length ≤ 1 ∧
    (∀ i ∈ others, p.ai.lhs i x.entry + stride.length * p.ai.lhs i dx.entry ≤ p.bound i) ∧
    ∀ i, stride.blocking = some i →
      p.ai.lhs i x.entry + stride.length * p.ai.lhs i dx.entry = p.bound i := by
  unfold stride? at h
  split at h
  · next hempty =>
    obtain rfl := Except.ok.inj h
    rw [List.isEmpty_iff.1 hempty]
    exact ⟨zero_le_one, le_rfl, fun i hi => (nomatch hi), fun i hi => nomatch hi⟩
  · obtain ⟨slacks, hslacks, h⟩ := Checked.bind_eq_ok_iff.1 h
    obtain ⟨growths, hgrowths, h⟩ := Checked.bind_eq_ok_iff.1 h
    obtain rfl := Except.ok.inj h
    have hslackEq := fun k hk => entry_slacks hslacks (k := k) hk
    have hgrowthEq := (entry_bodies hgrowths).2
    have hnonneg : ∀ k < others.length, 0 ≤ slacks.entry k := by
      intro k hk
      rw [hslackEq k hk, sub_nonneg]
      exact hothers _ (getD_mem hk)
    simp only [stepRatio_eq_div hslack]
    obtain ⟨⟨hlow, hhigh⟩, hkeeps, hblocks⟩ :=
      least_quotient_spec hslack hsolution length growths.entry hnonneg
    refine ⟨hlow, hhigh, fun i hi => ?_, fun i hi => ?_⟩
    · obtain ⟨k, hk, rfl⟩ := exists_getD_eq hi
      have hkept := hkeeps k hk
      rw [hslackEq k hk, hgrowthEq k hk] at hkept
      linarith
    · obtain ⟨k, hk, rfl⟩ := Option.map_eq_some_iff.1 hi
      obtain ⟨hlt, htight⟩ := hblocks k hk
      rw [hslackEq k hlt, hgrowthEq k hlt] at htight
      linarith

end Stride

/-! ## A step -/

section Step

variable {target : Target K}

/-- The derivative of the objective along a step is zero at its target, because the step moves along
the active rows. -/
theorem slope_eq_zero (hp : p.WellSized) (hcount : s.working.count = p.mi) (hs : Consistent p s)
    (ht : SolvesRows p s.working.members target) (hme : p.me ≤ s.multipliers.size)
    (hcovers : ∀ i ∈ s.working.members, p.me + i < s.multipliers.size) :
    p.slope target.x.entry (fun j => target.x.entry j - s.x.entry j) = 0 := by
  rw [p.slope_eq_of_balances hp (balances_spread hcount ht hme hcovers), neg_eq_zero]
  have hequality : ∑ r ∈ range p.me,
      (spread p s.working.members target.multipliers s.multipliers).entry r *
        p.ae.lhs r (fun j => target.x.entry j - s.x.entry j) = 0 := by
    refine sum_eq_zero fun r hr => ?_
    have hr := mem_range.1 hr
    rw [Mat.lhs_sub, ht.equality r hr, hs.feasible.equality r hr, sub_self, mul_zero]
  rw [hequality, zero_add]
  refine sum_eq_zero fun i _ => ?_
  by_cases hi : i ∈ s.working.members
  · obtain ⟨k, hk, rfl⟩ := exists_getD_eq hi
    rw [Mat.lhs_sub, ht.tight k hk, hs.tight _ (WorkingSet.mem_members.1 hi), sub_self, mul_zero]
  · rw [entry_spread_of_notMem hi, zero_mul]

/-- A part of the way to the target does not raise the objective. -/
theorem descends_of_part [IsStrictOrderedRing K] (hp : p.WellSized) (hsymm : p.q.IsSymm)
    (hpsd : p.q.IsPosSemidef) {x t y : Vec K} (hx : x.size = p.n) (hy : y.size = p.n) {a : K}
    (h₀ : 0 ≤ a) (h₁ : a ≤ 1)
    (hentry : ∀ j < p.n, y.entry j = x.entry j + a * (t.entry j - x.entry j))
    (hslope : p.slope t.entry (fun j => t.entry j - x.entry j) = 0) : Descends p x y := by
  have hfall := p.objectiveAt_towards hp hsymm hslope a
  rw [← p.objectiveAt_congr hp hentry, ← p.objective_eq_objectiveAt hp hx,
    ← p.objective_eq_objectiveAt hp hy] at hfall
  have hhalf : 0 < 1 - 1 / 2 * a := by linarith
  refine ⟨?_, fun hpd hne => ?_⟩
  · have hform := mul_nonneg (mul_nonneg h₀ hhalf.le) (hpsd fun j => t.entry j - x.entry j)
    linarith
  · -- A different point differs in an entry, so that neither the part nor the way is zero.
    obtain ⟨j, hj, hdiffer⟩ : ∃ j < p.n, y.entry j ≠ x.entry j := by
      by_contra hall
      refine hne (Vec.ext_entry (hy.trans hx.symm) fun j hj => ?_)
      by_contra hdiffer
      exact hall ⟨j, hy ▸ hj, hdiffer⟩
    have hway : t.entry j - x.entry j ≠ 0 := by
      intro hzero
      rw [hentry j hj, hzero, mul_zero, add_zero] at hdiffer
      exact hdiffer rfl
    have hpos : 0 < a := by
      refine lt_of_le_of_ne h₀ fun hzero => hdiffer ?_
      rw [hentry j hj, ← hzero, zero_mul, add_zero]
    have hform := hpd (fun j => t.entry j - x.entry j) ⟨j, by rw [hp.q_rows]; exact hj, hway⟩
    have hproduct := mul_pos (mul_pos hpos hhalf) hform
    linarith

/-- A move by the part `a` of the way to the target keeps the constraints if it keeps those outside
of the working set. -/
theorem consistent_of_part (hp : p.WellSized) (hprepared : Prepared par p s) (hs : Consistent p s)
    (ht : SolvesRows p s.working.members target) {a : K} {y : Vec K} (hy : y.size = p.n)
    (hentry : ∀ j < p.n, y.entry j = s.x.entry j + a * (target.x.entry j - s.x.entry j))
    (hothers : ∀ i ∈ s.working.others, p.ai.lhs i y.entry ≤ p.bound i) {b : Option ℕ}
    (hb : ∀ i, b = some i → p.ai.lhs i y.entry = p.bound i) {status : Status} {l : Vec K} :
    Consistent p { s with status, x := y, blocking := b, multipliers := l } := by
  have hae : ∀ r, p.ae.lhs r y.entry =
      p.ae.lhs r s.x.entry + a * (p.ae.lhs r target.x.entry - p.ae.lhs r s.x.entry) := by
    intro r
    rw [← Mat.lhs_sub, ← Mat.lhs_add_mul]
    exact Mat.lhs_congr fun j hj => hentry j (by rwa [← hp.ae_cols])
  have hai : ∀ i, p.ai.lhs i y.entry =
      p.ai.lhs i s.x.entry + a * (p.ai.lhs i target.x.entry - p.ai.lhs i s.x.entry) := by
    intro i
    rw [← Mat.lhs_sub, ← Mat.lhs_add_mul]
    exact Mat.lhs_congr fun j hj => hentry j (by rwa [← hp.ai_cols])
  have htight : ∀ i, s.working.contains i = true → p.ai.lhs i y.entry = p.bound i := by
    intro i hi
    obtain ⟨k, hk, rfl⟩ := exists_getD_eq (WorkingSet.mem_members.2 hi)
    rw [hai, ht.tight k hk, hs.tight _ hi, sub_self, mul_zero, add_zero]
  refine ⟨hy, ⟨fun r hr => ?_, fun i hi => ?_⟩, htight, hb⟩
  · rw [hae, ht.equality r hr, hs.feasible.equality r hr, sub_self, mul_zero, add_zero]
  · cases hmember : s.working.contains i with
    | true => exact (htight i hmember).le
    | false =>
      exact hothers i (WorkingSet.mem_others.2 ⟨by rw [hprepared.count]; exact hi, hmember⟩)

variable [IsStrictOrderedRing K]

omit [IsStrictOrderedRing K] in
theorem size_moved (a : K) (x dx : Vec K) :
    (if 0 < a then Vec.addScaled a dx x else x).size = x.size := by
  split
  · exact Vec.size_addScaled ..
  · rfl

omit [IsStrictOrderedRing K] in
/-- Where the point is left as it is, the move is by no part of the way. -/
theorem entry_moved {a : K} (ha : 0 ≤ a) {x : Vec K} (dx : Vec K) {j : ℕ} (hj : j < x.size) :
    (if 0 < a then Vec.addScaled a dx x else x).entry j = x.entry j + a * dx.entry j := by
  split
  · exact Vec.entry_addScaled hj
  · next hpos => rw [le_antisymm (not_lt.1 hpos) ha, zero_mul, add_zero]

/-- A step keeps the constraints and does not raise the objective. -/
theorem step_spec (hpar : par.IsExact) (hp : p.WellSized) (hsymm : p.q.IsSymm)
    (hpsd : p.q.IsPosSemidef) (hprepared : Prepared par p s) (hs : Consistent p s)
    (ht : SolvesRows p s.working.members target) {stage : Stage K}
    (h : takeStep? par p s s.working.members target = .ok stage) :
    Consistent p stage.state ∧ Descends p s.x stage.state.x ∧ stage.state.status ≠ .infeasible := by
  obtain ⟨hsize, ⟨hme, hcovers⟩, ⟨-, hstate⟩ | ⟨-, stride, hstride, hstate⟩⟩ := takeStep_cases h
  · rw [hstate]
    exact ⟨⟨hs.size_x, hs.feasible, hs.tight, hs.blocking⟩, Descends.refl p s.x,
      fun h => by cases h⟩
  · have hother : ∀ i ∈ s.working.others, p.ai.lhs i s.x.entry ≤ p.bound i := by
      intro i hi
      have hlt := (WorkingSet.mem_others.1 hi).1
      rw [hprepared.count] at hlt
      exact hs.feasible.inequality i hlt
    obtain ⟨h₀, h₁, hkeep, hblock⟩ := stride_spec hpar.slack hpar.solution hother hstride
    set dx := Vec.addScaled (-1) s.x target.x
    have hdx : ∀ j < p.n, dx.entry j = target.x.entry j - s.x.entry j := by
      intro j hj
      rw [Vec.entry_addScaled (by rw [ht.size_x]; exact hj)]
      ring
    set y := if 0 < stride.length then Vec.addScaled stride.length dx s.x else s.x
    have hysize : y.size = p.n := (size_moved ..).trans hs.size_x
    have hentry : ∀ j < p.n, y.entry j = s.x.entry j + stride.length * dx.entry j :=
      fun j hj => entry_moved h₀ dx (by rw [hs.size_x]; exact hj)
    have hlhs : ∀ i, p.ai.lhs i y.entry =
        p.ai.lhs i s.x.entry + stride.length * p.ai.lhs i dx.entry := by
      intro i
      rw [← Mat.lhs_add_mul]
      exact Mat.lhs_congr fun j hj => hentry j (by rwa [← hp.ai_cols])
    have hpart : ∀ j < p.n,
        y.entry j = s.x.entry j + stride.length * (target.x.entry j - s.x.entry j) := by
      intro j hj
      rw [hentry j hj, hdx j hj]
    rw [hstate]
    refine ⟨?_, ?_, fun h => by cases h⟩
    · refine consistent_of_part hp hprepared hs ht hysize hpart (fun i hi => ?_) fun i hi => ?_
      · rw [hlhs]
        exact hkeep i hi
      · rw [hlhs]
        exact hblock i hi
    · exact descends_of_part hp hsymm hpsd hs.size_x hysize h₀ h₁ hpart
        (slope_eq_zero hp hprepared.count hs ht hme hcovers)

end Step

/-! ## Iterations and exchanges -/

section Iteration

theorem joining_eq_some {i : ℕ} (h : joining? par p s = .ok (some i)) :
    s.blocking = some i ∨ mostViolated? par p s = .ok (some i) := by
  unfold joining? at h
  split at h
  · next j hblocking =>
    obtain ⟨member, -, h⟩ := Checked.bind_eq_ok_iff.1 h
    split at h
    · exact Or.inr h
    · rw [hblocking, Option.some.inj (Except.ok.inj h)]
      exact Or.inl rfl
  · exact Or.inr h

variable [IsStrictOrderedRing K]

theorem lt_lhs_of_mostViolated {i : ℕ} (h : mostViolated? par p s = .ok (some i)) :
    i ∈ s.working.others ∧ p.bound i < p.ai.lhs i s.x.entry := by
  obtain ⟨slacks, hslacks, h⟩ := Checked.bind_eq_ok_iff.1 h
  obtain ⟨k, hk, rfl⟩ := Option.map_eq_some_iff.1 (Except.ok.inj h)
  have hlt := List.mem_range.1 (Selection.mem_of_choice_least hk).1
  have hneg := Selection.value_lt_of_choice_eq_some hk
  rw [entry_slacks hslacks hlt, sub_neg] at hneg
  exact ⟨getD_mem hlt, hneg⟩

/-- What joins the working set is what limited the step, since no inequality is violated. -/
theorem Consistent.exchanged {goesOn : Bool} (hs : Consistent p s) (hcount : s.working.count = p.mi)
    (h : Exchanged par p s goesOn s') : Consistent p s' ∧ s'.x = s.x := by
  cases h with
  | finished settled => exact ⟨⟨hs.size_x, hs.feasible, hs.tight, hs.blocking⟩, rfl⟩
  | joined i joins =>
    refine ⟨⟨hs.size_x, hs.feasible, fun j hj => ?_, hs.blocking⟩, rfl⟩
    have hj : (s.working.insert i).contains j = true := hj
    rw [WorkingSet.contains_insert, Bool.or_eq_true, Bool.and_eq_true] at hj
    rcases hj with hj | ⟨hji, -⟩
    · exact hs.tight j hj
    · obtain rfl := of_decide_eq_true hji
      rcases joining_eq_some joins with hblocking | hviolated
      · exact hs.blocking _ hblocking
      · obtain ⟨hother, hlt⟩ := lt_lhs_of_mostViolated hviolated
        have hrange := (WorkingSet.mem_others.1 hother).1
        rw [hcount] at hrange
        exact absurd hlt (not_lt.2 (hs.feasible.inequality _ hrange))
  | left i stays leaves =>
    have hdrop := hs.shrunk (shrunk_drop s p.me i)
    exact ⟨⟨hdrop.size_x, hdrop.feasible, hdrop.tight, hdrop.blocking⟩, rfl⟩

/-- However an iteration ends, it keeps the constraints and does not raise the objective. -/
theorem Consistent.attempted [ExactRoots K] (hpar : par.IsExact) (hp : p.WellSized)
    (hsymm : p.q.IsSymm) (hpsd : p.q.IsPosSemidef) (hprepared : Prepared par p s)
    (hs : Consistent p s) (h : Attempted par p s s') :
    Consistent p s' ∧ Descends p s.x s'.x ∧ s'.status ≠ .infeasible := by
  cases h with
  | stepped outcome target stage solved found step =>
    have hremembers := hprepared.remembers hp hsymm hpar.zeroThreshold.ge
    have htarget := solves_of_subproblem hremembers hp hsymm solved found
    exact step_spec (s := { s with lu := outcome.lu }) hpar hp hsymm hpsd (hprepared.solved solved)
      ⟨hs.size_x, hs.feasible, hs.tight, hs.blocking⟩ htarget step
  | stuck outcome feasible solved unsolvable empty test =>
    refine ⟨⟨hs.size_x, hs.feasible, hs.tight, hs.blocking⟩, Descends.refl p s.x, ?_⟩
    rw [(isFeasible_iff hpar.slack test).2 hs.feasible]
    exact fun h => by cases h
  | exhausted outcome solved nonempty =>
    exact ⟨⟨hs.size_x, hs.feasible, hs.tight, hs.blocking⟩, Descends.refl p s.x,
      fun h => by cases h⟩

theorem Consistent.iterated [ExactRoots K] (hpar : par.IsExact) (hp : p.WellSized)
    (hsymm : p.q.IsSymm) (hpsd : p.q.IsPosSemidef) (hprepared : Prepared par p s)
    (hs : Consistent p s) {moved : Stage K} (h : iterate? par p s = .ok moved) :
    Consistent p moved.state ∧ Descends p s.x moved.state.x ∧
      moved.state.status ≠ .infeasible := by
  obtain ⟨s₁, hshrunk, hattempt⟩ := iterate_cases h
  have hx : s₁.x = s.x := hshrunk.x
  rw [← hx]
  exact (hs.unblocked.shrunk hshrunk).attempted hpar hp hsymm hpsd
    (hprepared.unblocked.shrunk hshrunk) hattempt

theorem Consistent.reached [ExactRoots K] (hpar : par.IsExact) (hp : p.WellSized)
    (hsymm : p.q.IsSymm) (hpsd : p.q.IsPosSemidef) {s₀ : State K} (hprepared : Prepared par p s₀)
    (hs₀ : Consistent p s₀) (h : Reached par p s₀ s) : Consistent p s := by
  induction h with
  | start => exact hs₀
  | next reached iterated _ exchanged _ ih =>
    have hmoved := (hprepared.reached reached).iterated iterated
    have hkept := (ih.iterated hpar hp hsymm hpsd (hprepared.reached reached) iterated).1
    exact (hkept.counted.exchanged hmoved.count (exchange_cases exchanged)).1

/-- A run that starts at a feasible point ends at one. -/
theorem Consistent.ended [ExactRoots K] (hpar : par.IsExact) (hp : p.WellSized)
    (hsymm : p.q.IsSymm) (hpsd : p.q.IsPosSemidef) {s₀ : State K} (hprepared : Prepared par p s₀)
    (hs₀ : Consistent p s₀) (h : Ended par p s₀ s) : Consistent p s := by
  have hreached := fun s (hs : Reached par p s₀ s) =>
    hs₀.reached hpar hp hsymm hpsd hprepared hs
  have hiterated := fun s (hs : Reached par p s₀ s) moved (hmoved : iterate? par p s = .ok moved) =>
    (hreached s hs).iterated hpar hp hsymm hpsd (hprepared.reached hs) hmoved
  cases h with
  | limit reached => exact hreached _ reached
  | failed reached iterated failure => exact (hiterated _ reached _ iterated).1.counted
  | finished reached iterated usable exchanged ends =>
    have hmoved := (hprepared.reached reached).iterated iterated
    exact ((hiterated _ reached _ iterated).1.counted.exchanged hmoved.count
      (exchange_cases exchanged)).1

end Iteration

/-! ## The start -/

/-- What joins at the start is tight. -/
theorem tight_of_joinTight [IsStrictOrderedRing K] (hslack : par.slack.IsExact) {x values : Vec K}
    {others : List ℕ} (hvalues : p.bodies? others x = .ok values) {w : WorkingSet} {i : ℕ}
    (hw : w.contains i = false)
    (hi : ((others.zip values.toList).foldl (joinTight par p) w).contains i = true) :
    p.ai.lhs i x.entry = p.bound i := by
  rcases contains_foldl_joinTight hi with hmember | ⟨v, hmem, hsame⟩
  · rw [hw] at hmember
    cases hmember
  · obtain ⟨hsize, hbodies⟩ := entry_bodies hvalues
    obtain ⟨k, hk, hget⟩ := List.getElem_of_mem hmem
    rw [List.getElem_zip] at hget
    obtain ⟨hindex, hvalue⟩ := Prod.mk.inj hget
    have hk : k < others.length := (lt_min_iff.1 (List.length_zip ▸ hk)).1
    have hv : values.entry k = v := by
      rw [← hvalue]
      simp [Vec.entry, Array.getD, hsize, hk]
    rw [Tolerance.differ_eq_decide hslack, decide_eq_false_iff_not, not_not] at hsame
    rw [hsame, ← hv, hbodies k hk, List.getD_eq_getElem _ _ hk, hindex]

/-- A start that is found satisfies the constraints, and its working set is tight. -/
theorem consistent_of_initialise [IsStrictOrderedRing K] (hpar : par.ExactRatios)
    (hslack : par.slack.IsExact) (hε : (Scalar.epsilon : K) = 0) (hp : p.WellSized)
    (hx : s.x.size = p.n) (hblocking : s.blocking = none) {offer : Option (Solution K)}
    {stage : Stage K} (h : initialise? par p offer s = .ok stage)
    (hfeasible : stage.state.status.isFeasible = true) : Consistent p stage.state := by
  obtain ⟨found, hsearch, ⟨hfound, hprepare⟩ | ⟨hfailure, -⟩⟩ := initialise_cases h
  · obtain ⟨hsize, hpoint⟩ := isFeasible_of_search
      (s := { s with cholesky := s.cholesky.compute p.q, working := s.working.clear })
      hpar hε hslack hp hx hsearch hfound
    obtain ⟨⟨x, l, hstate⟩, -⟩ := search_state hsearch
    obtain ⟨s₁, s₂, l', m, hjoin, hshrunk, hend, -⟩ := prepare_cases hprepare
    obtain ⟨working, rfl, hworking⟩ := joinTight_cases hjoin
    have hnone : ∀ i, found.state.working.contains i = false := by
      intro i
      rw [hstate]
      exact WorkingSet.contains_empty _ i
    have hs₁ : Consistent p { found.state with status := .feasible, working := working } := by
      refine ⟨hsize, hpoint, fun i hi => ?_, fun i hi => ?_⟩
      · rcases hworking with ⟨-, rfl⟩ | ⟨values, hvalues, rfl⟩
        · have hi : found.state.working.contains i = true := hi
          rw [hnone i] at hi
          cases hi
        · exact tight_of_joinTight hslack hvalues (hnone i) hi
      · rw [hstate] at hi
        cases hblocking.symm.trans hi
    have hs₂ := hs₁.shrunk hshrunk
    rw [hend]
    exact ⟨hs₂.size_x, hs₂.feasible, hs₂.tight, hs₂.blocking⟩
  · rw [Status.isFeasible_of_isFailure hfailure] at hfeasible
    cases hfeasible

theorem consistent_initialise [IsStrictOrderedRing K] (hpar : par.IsExact)
    (hε : (Scalar.epsilon : K) = 0) (hp : p.WellSized) {offer : Option (Solution K)}
    {stage : Stage K} (h : initialise? par p offer (start par p).state = .ok stage)
    (hfeasible : stage.state.status.isFeasible = true) : Consistent p stage.state :=
  consistent_of_initialise hpar.toExactRatios hpar.slack hε hp (Vec.size_zeros p.n) rfl h hfeasible

end ActiveSet

namespace QuadraticProgram

open ActiveSet

variable {K : Type} [Field K] [LinearOrder K] [IsStrictOrderedRing K] [Exact K] [ExactRoots K]

/-- From a feasible start on, whatever point was offered and however many iterations are made, every
iteration and every exchange leaves a feasible point at which the working set is tight, no iteration
raises the objective or ends infeasible, and one that moves the point lowers it if the quadratic
term is positive definite. -/
theorem iterates_feasible (par : Params K) (p : QuadraticProgram K) (offer : Option (Solution K))
    (hp : p.IsBuilt) (hsymm : p.q.IsSymm) (hpsd : p.q.IsPosSemidef) (hpar : par.IsExact)
    (hε : (Scalar.epsilon : K) = 0) (hcheck : p.check par.zeroThreshold = .ok ())
    {stage : Stage K} (hstage : initialise? par p offer (start par p).state = .ok stage)
    (hfeasible : stage.state.status = .feasible) :
    Consistent p stage.state ∧ ∀ s, Reached par p stage.state s → Consistent p s ∧
      ∀ moved, iterate? par p s = .ok moved →
        Consistent p moved.state ∧ moved.state.status ≠ .infeasible ∧
        Descends p s.x moved.state.x ∧
        (moved.state.status.isFailure = false →
          ∀ e, exchange? par p moved.state.counted = .ok e →
            Consistent p e.state ∧ e.state.x = moved.state.x) := by
  have hsized := hp.wellSized hcheck
  have hfeasible' : stage.state.status.isFeasible = true := by
    rw [hfeasible]
    rfl
  have hprepared := prepared_initialise hstage hfeasible'
  have hstart := consistent_initialise hpar hε hsized hstage hfeasible'
  refine ⟨hstart, fun s hs => ?_⟩
  have hconsistent := hstart.reached hpar hsized hsymm hpsd hprepared hs
  refine ⟨hconsistent, fun moved hmoved => ?_⟩
  obtain ⟨hkept, hdescends, hstatus⟩ :=
    hconsistent.iterated hpar hsized hsymm hpsd (hprepared.reached hs) hmoved
  refine ⟨hkept, hstatus, hdescends, fun _ e he => ?_⟩
  exact hkept.counted.exchanged ((hprepared.reached hs).iterated hmoved).count (exchange_cases he)

theorem isExact_sampleParams :
    letI := Exact.real 1000
    sampleParams.IsExact := by
  let := Exact.real 1000
  exact ⟨⟨⟨rfl, rfl⟩, ⟨rfl, rfl⟩⟩, rfl, ⟨rfl, rfl⟩, ⟨rfl, rfl⟩⟩

theorem sampleState_eq :
    letI := Exact.real 1000
    sampleState = halfLineState sampleParams 4 4 0 := by
  let := Exact.real 1000
  have hroot : Scalar.sqrt (4 : ℝ) = 2 := by
    rw [show (4 : ℝ) = 2 ^ 2 by norm_num]
    exact Real.sqrt_sq zero_le_two
  have hquotient : (4 : ℝ) / 2 / 2 = 1 := by norm_num
  rw [halfLineState, hroot, hquotient]
  rfl

/-- The quadratic term of the samples has a factor. -/
theorem pivot_sample : sampleParams.zeroThreshold * max 1 |4| < 4 := by
  rw [sampleParams, zero_mul]
  exact four_pos

/-- Where the end is not reached the run starts at the origin with an empty working set. -/
theorem initialise_sample :
    letI := Exact.real 1000
    (∃ trace, initialise? sampleParams sample (some sampleOffer)
      (start sampleParams sample).state = .ok ⟨sampleState, trace⟩) ∧
    ∃ trace, initialise? sampleParams limitedSample (some sampleOffer)
      (start sampleParams limitedSample).state = .ok ⟨sampleState, trace⟩ := by
  let := Exact.real 1000
  rw [sampleState_eq]
  exact ⟨initialise_inside (a := 1) (b := 3) isExact_sampleParams four_pos (by norm_num) rfl rfl,
    initialise_inside (a := 2) (b := 1) isExact_sampleParams four_pos (by norm_num) rfl rfl⟩

theorem iterate_sample :
    letI := Exact.real 1000
    ∃ trace, iterate? sampleParams sample sampleState =
      .ok ⟨{ sampleState with status := .approximate, x := #[1] }, trace⟩ := by
  let := Exact.real 1000
  have := ExactRoots.real 1000
  obtain ⟨trace, hmoved⟩ := iterate_whole (q := 4) (c := 4) (a := 1) (b := 3) (x := 0) four_pos
    (isSmall_eq_false isExact_sampleParams (by norm_num))
    (stride_whole isExact_sampleParams (by norm_num) (by norm_num) _)
  rw [← sampleState_eq, div_self four_ne_zero] at hmoved
  exact ⟨trace, hmoved⟩

theorem iterate_limitedSample :
    letI := Exact.real 1000
    ∃ trace, iterate? sampleParams limitedSample sampleState =
      .ok ⟨{ sampleState with
        status := .approximate, x := #[1 / 2], blocking := some 0 }, trace⟩ := by
  let := Exact.real 1000
  have := ExactRoots.real 1000
  obtain ⟨trace, hmoved⟩ := iterate_limited (q := 4) (c := 4) (a := 2) (b := 1) (x := 0)
    isExact_sampleParams four_pos (by norm_num) (by norm_num)
  rw [← sampleState_eq] at hmoved
  exact ⟨trace, hmoved⟩

theorem iterates_feasible_sample :
    letI := Exact.real 1000
    (∃ trace moved, initialise? sampleParams sample (some sampleOffer)
        (start sampleParams sample).state = .ok ⟨sampleState, trace⟩ ∧
      iterate? sampleParams sample sampleState = .ok moved ∧ moved.state.x = #[1] ∧
      Consistent sample moved.state ∧
      sample.objective moved.state.x < sample.objective sampleState.x) ∧
    ∃ trace moved e again, initialise? sampleParams limitedSample (some sampleOffer)
        (start sampleParams limitedSample).state = .ok ⟨sampleState, trace⟩ ∧
      iterate? sampleParams limitedSample sampleState = .ok moved ∧
      moved.state.x = #[1 / 2] ∧ moved.state.blocking = some 0 ∧
      limitedSample.objective moved.state.x < limitedSample.objective sampleState.x ∧
      exchange? sampleParams limitedSample moved.state.counted = .ok e ∧
      e.state.working.members = [0] ∧ Consistent limitedSample e.state ∧
      iterate? sampleParams limitedSample e.state = .ok again ∧
      again.state.x = #[1 / 2] ∧ again.state.multipliers = #[1] ∧
      Consistent limitedSample again.state := by
  let := Exact.real 1000
  have := ExactRoots.real 1000
  obtain ⟨⟨trace, hstage⟩, trace', hstage'⟩ := initialise_sample
  have hpd : sample.q.IsPosDef := isPosDef_halfLine four_pos
  constructor
  · obtain ⟨progress, hmoved⟩ := iterate_sample
    obtain ⟨-, hrun⟩ := iterates_feasible sampleParams sample (some sampleOffer) isBuilt_halfLine
      isSymm_halfLine hpd.isPosSemidef isExact_sampleParams rfl (check_halfLine _) hstage rfl
    obtain ⟨hconsistent, -, hdescends, -⟩ := (hrun sampleState .start).2 _ hmoved
    refine ⟨trace, _, hstage, hmoved, rfl, hconsistent, hdescends.lt hpd ?_⟩
    show (#[1] : Array ℝ) ≠ #[0]
    simp
  · obtain ⟨progress, hmoved⟩ := iterate_limitedSample
    obtain ⟨-, hrun⟩ := iterates_feasible sampleParams limitedSample (some sampleOffer)
      isBuilt_halfLine isSymm_halfLine hpd.isPosSemidef isExact_sampleParams rfl (check_halfLine _)
      hstage' rfl
    obtain ⟨-, -, hdescends, hexchanged⟩ := (hrun sampleState .start).2 _ hmoved
    have hexchange : exchange? sampleParams limitedSample (State.counted { sampleState with
        status := .approximate, x := #[1 / 2], blocking := some 0 }) = _ :=
      exchange_joins (x := 0) rfl (Or.inl rfl)
    have hreached := Reached.next .start hmoved rfl hexchange rfl
    obtain ⟨lu, remarks, hagain⟩ := iterate_end (q := 4) (c := 4) (a := 2) (b := 1)
      isExact_sampleParams two_ne_zero ready_endState (computed_endState (x := 0) pivot_sample) rfl
      rfl
    have hmultiplier : ((4 : ℝ) - 4 * (1 / 2)) / 2 = 1 := by norm_num
    rw [endState, ← sampleState_eq, hmultiplier] at hagain
    refine ⟨trace', _, _, _, hstage', hmoved, rfl, rfl, hdescends.lt hpd ?_, hexchange, rfl,
      (hexchanged rfl _ hexchange).1, hagain, rfl, rfl, ((hrun _ hreached).2 _ hagain).1⟩
    show (#[1 / 2] : Array ℝ) ≠ #[0]
    simp

end QuadraticProgram

end QuadProg
