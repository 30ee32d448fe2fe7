import QuadProg.LinearProgram
import QuadProg.Proofs.StandardForm

/-!
# Linear programs, end to end

In exact arithmetic the status of a solved program is true of the program as it was given: an
optimum comes with multipliers that certify it up to the threshold of reduced costs, a program
reported infeasible has no feasible point, and one reported unbounded has feasible points of any low
cost.
-/

namespace QuadProg

open Finset

namespace LinearProgram

/-- The number of equality constraints. -/
def me {α : Type} (p : LinearProgram α) : ℕ := (p.ae.map Mat.rows).getD 0

/-- The number of inequality constraints. -/
def mi {α : Type} (p : LinearProgram α) : ℕ := (p.ai.map Mat.rows).getD 0

/-- The tableau that the run on the program starts from. -/
def start {α : Type} [Scalar α] (p : LinearProgram α) : Tableau α :=
  let form := p.standardFormOf p.me p.mi
  let rows := signedRows form.a form.b
  Tableau.ofStandardForm rows.a rows.b form.c

/-- No ratio that occurs in the run on the program reaches the number that stands for no ratio. -/
def RatiosBelowMax {α : Type} [Scalar α] (par : Params α) (p : LinearProgram α) : Prop :=
  ∀ t ∈ Tableau.tested par par.maxIter p.start, t.RatiosBelowMax par

instance {α : Type} [Scalar α] (par : Params α) (p : LinearProgram α) :
    Decidable (p.RatiosBelowMax par) :=
  inferInstanceAs (Decidable (∀ t ∈ Tableau.tested par par.maxIter p.start, t.RatiosBelowMax par))

variable {K : Type} [Field K] [LinearOrder K] [Exact K]

/-- The left-hand side of an equality constraint. -/
def equalityLhs (p : LinearProgram K) (r : ℕ) (x : ℕ → K) : K :=
  ∑ j ∈ range p.n, entry p.ae r j * x j

/-- The left-hand side of an inequality constraint. -/
def inequalityLhs (p : LinearProgram K) (i : ℕ) (x : ℕ → K) : K :=
  ∑ j ∈ range p.n, entry p.ai i j * x j

/-- The slack of an inequality constraint. -/
def slack (p : LinearProgram K) (i : ℕ) (x : ℕ → K) : K := entry p.bi i 0 - p.inequalityLhs i x

/-- The cost of a point. -/
def costAt (p : LinearProgram K) (x : ℕ → K) : K := ∑ j ∈ range p.n, p.c.get j 0 * x j

/-- The point satisfies the constraints of the program. -/
structure IsFeasible (p : LinearProgram K) (x : ℕ → K) : Prop where
  nonneg : ∀ j < p.n, 0 ≤ x j
  equality : ∀ r < p.me, p.equalityLhs r x = entry p.be r 0
  inequality : ∀ i < p.mi, p.inequalityLhs i x ≤ entry p.bi i 0

/-- The solution is optimal up to `ε` for each unit of the variables and slacks, and its
multipliers, those of the equality constraints first, certify it. -/
structure IsCertified (p : LinearProgram K) (ε : K) (s : Solution K) : Prop where
  size_x : s.x.size = p.n
  feasible : p.IsFeasible s.x.entry
  value_eq : s.value = p.costAt s.x.entry
  duals : ∃ y : Vec K, s.multipliers = some y ∧ y.size = p.me + p.mi ∧
    s.value = ∑ r ∈ range p.me, entry p.be r 0 * y.entry r +
      ∑ i ∈ range p.mi, entry p.bi i 0 * y.entry (p.me + i) ∧
    (∀ j < p.n, -ε ≤ p.c.get j 0 - ∑ r ∈ range p.me, entry p.ae r j * y.entry r -
      ∑ i ∈ range p.mi, entry p.ai i j * y.entry (p.me + i)) ∧
    ∀ i < p.mi, y.entry (p.me + i) ≤ ε
  optimal : ∀ x, p.IsFeasible x →
    s.value - ε * (∑ j ∈ range p.n, x j + ∑ i ∈ range p.mi, p.slack i x) ≤ p.costAt x

/-- What the status of a solution says is true of the program. -/
structure Answers (p : LinearProgram K) (ε : K) (s : Solution K) : Prop where
  optimal : s.status = .optimal → p.IsCertified ε s
  infeasible : s.status = .infeasible → ¬ ∃ x, p.IsFeasible x
  unbounded : s.status = .unbounded →
    (∃ x, p.IsFeasible x) ∧ ∀ bound : K, ∃ x, p.IsFeasible x ∧ p.costAt x < bound
  feasible : s.status = .feasible ∨ s.status = .approximate →
    s.x.size = p.n ∧ p.IsFeasible s.x.entry
  status : s.status ≠ .unexplored ∧ s.status ≠ .valid

/-! ## The standard form -/

section StandardForm

variable (p : LinearProgram K)

theorem get_form_structural {r j : ℕ} (hr : r < p.me + p.mi) (hj : j < p.n) :
    (p.standardFormOf p.me p.mi).a.get r j =
      if r < p.me then entry p.ae r j else entry p.ai (r - p.me) j := by
  refine (Mat.get_ofFn _ hr (by omega)).trans ?_
  simp only [hj, if_true]

theorem get_form_slack {r k : ℕ} (hr : r < p.me + p.mi) (hk : k < p.mi) :
    (p.standardFormOf p.me p.mi).a.get r (p.n + k) = if p.me + k = r then 1 else 0 := by
  refine (Mat.get_ofFn _ hr (by omega)).trans ?_
  have h₁ : ¬ p.n + k < p.n := by omega
  by_cases hlt : r < p.me
  · have h₂ : p.me + k ≠ r := by omega
    simp [hlt, h₂]
  · have h₂ : k = r - p.me ↔ p.me + k = r := by omega
    simp [hlt, h₂]

theorem get_form_bound {r : ℕ} (hr : r < p.me + p.mi) :
    (p.standardFormOf p.me p.mi).b.get r 0 =
      if r < p.me then entry p.be r 0 else entry p.bi (r - p.me) 0 :=
  Mat.get_ofFn _ hr Nat.one_pos

theorem get_form_cost {j : ℕ} (hj : j < p.n + p.mi) :
    (p.standardFormOf p.me p.mi).c.get j 0 = if j < p.n then p.c.get j 0 else 0 :=
  Mat.get_ofFn _ hj Nat.one_pos

theorem lhs_form_equality {r : ℕ} (hr : r < p.me) (z : ℕ → K) :
    (p.standardFormOf p.me p.mi).a.lhs r z = p.equalityLhs r z := by
  show ∑ j ∈ range (p.n + p.mi), _ = _
  rw [sum_range_add, equalityLhs, add_eq_left.2]
  · refine sum_congr rfl fun j hj => ?_
    rw [get_form_structural p (by omega) (mem_range.1 hj), if_pos hr]
  · refine sum_eq_zero fun k hk => ?_
    rw [get_form_slack p (by omega) (mem_range.1 hk), if_neg (by omega), zero_mul]

theorem lhs_form_inequality {i : ℕ} (hi : i < p.mi) (z : ℕ → K) :
    (p.standardFormOf p.me p.mi).a.lhs (p.me + i) z = p.inequalityLhs i z + z (p.n + i) := by
  show ∑ j ∈ range (p.n + p.mi), _ = _
  rw [sum_range_add, inequalityLhs]
  congr 1
  · refine sum_congr rfl fun j hj => ?_
    rw [get_form_structural p (by omega) (mem_range.1 hj), if_neg (by omega),
      Nat.add_sub_cancel_left]
  · rw [sum_eq_single i]
    · rw [get_form_slack p (by omega) hi, if_pos rfl, one_mul]
    · intro k hk hne
      rw [get_form_slack p (by omega) (mem_range.1 hk), if_neg (by omega), zero_mul]
    · intro hnot
      exact absurd (mem_range.2 hi) hnot

theorem costAt_form (z : ℕ → K) :
    ∑ j ∈ range (p.n + p.mi), (p.standardFormOf p.me p.mi).c.get j 0 * z j = p.costAt z := by
  rw [sum_range_add, costAt, add_eq_left.2]
  · refine sum_congr rfl fun j hj => ?_
    have hj := mem_range.1 hj
    rw [get_form_cost p (by omega), if_pos hj]
  · refine sum_eq_zero fun k hk => ?_
    have hk := mem_range.1 hk
    rw [get_form_cost p (by omega), if_neg (by omega), zero_mul]

/-- The point together with its slacks. -/
def withSlacks (x : ℕ → K) (j : ℕ) : K := if j < p.n then x j else p.slack (j - p.n) x

theorem equalityLhs_congr {r : ℕ} {x y : ℕ → K} (h : ∀ j < p.n, x j = y j) :
    p.equalityLhs r x = p.equalityLhs r y :=
  sum_congr rfl fun j hj => by rw [h j (mem_range.1 hj)]

theorem inequalityLhs_congr {i : ℕ} {x y : ℕ → K} (h : ∀ j < p.n, x j = y j) :
    p.inequalityLhs i x = p.inequalityLhs i y :=
  sum_congr rfl fun j hj => by rw [h j (mem_range.1 hj)]

theorem costAt_congr {x y : ℕ → K} (h : ∀ j < p.n, x j = y j) : p.costAt x = p.costAt y :=
  sum_congr rfl fun j hj => by rw [h j (mem_range.1 hj)]

theorem IsFeasible.congr {p : LinearProgram K} {x y : ℕ → K} (hx : p.IsFeasible x)
    (h : ∀ j < p.n, x j = y j) : p.IsFeasible y :=
  ⟨fun j hj => h j hj ▸ hx.nonneg j hj,
    fun r hr => p.equalityLhs_congr h ▸ hx.equality r hr,
    fun i hi => p.inequalityLhs_congr h ▸ hx.inequality i hi⟩

theorem withSlacks_of_lt (x : ℕ → K) {j : ℕ} (hj : j < p.n) : p.withSlacks x j = x j :=
  if_pos hj

theorem withSlacks_slack (x : ℕ → K) (i : ℕ) : p.withSlacks x (p.n + i) = p.slack i x := by
  rw [withSlacks, if_neg (by omega), Nat.add_sub_cancel_left]

variable [IsStrictOrderedRing K]

theorem isFeasible_of_nonnegSolution {z : ℕ → K}
    (h : NonnegSolution (p.standardFormOf p.me p.mi).a (p.standardFormOf p.me p.mi).b z) :
    p.IsFeasible z := by
  refine ⟨fun j hj => h.nonneg j (show j < p.n + p.mi by omega), fun r hr => ?_, fun i hi => ?_⟩
  · have := h.solves r (show r < p.me + p.mi by omega)
    rwa [lhs_form_equality p hr, get_form_bound p (by omega), if_pos hr] at this
  · have hrow := h.solves (p.me + i) (show p.me + i < p.me + p.mi by omega)
    have hs := h.nonneg (p.n + i) (show p.n + i < p.n + p.mi by omega)
    rw [lhs_form_inequality p hi, get_form_bound p (by omega), if_neg (by omega),
      Nat.add_sub_cancel_left] at hrow
    linarith

theorem nonnegSolution_withSlacks {x : ℕ → K} (h : p.IsFeasible x) :
    NonnegSolution (p.standardFormOf p.me p.mi).a (p.standardFormOf p.me p.mi).b
      (p.withSlacks x) := by
  have hcongr : ∀ j < p.n, p.withSlacks x j = x j := fun j hj => p.withSlacks_of_lt x hj
  refine ⟨fun j hj => ?_, fun r hr => ?_⟩
  · by_cases hjn : j < p.n
    · rw [p.withSlacks_of_lt x hjn]
      exact h.nonneg j hjn
    · have hj' : j < p.n + p.mi := hj
      rw [withSlacks, if_neg hjn, slack, sub_nonneg]
      exact h.inequality _ (by omega)
  · have hr' : r < p.me + p.mi := hr
    rw [get_form_bound p hr']
    split
    · next hlt => rw [lhs_form_equality p hlt, p.equalityLhs_congr hcongr, h.equality r hlt]
    · next hge =>
      obtain ⟨i, rfl⟩ : ∃ i, r = p.me + i := ⟨r - p.me, by omega⟩
      rw [lhs_form_inequality p (by omega), p.inequalityLhs_congr hcongr, p.withSlacks_slack, slack,
        Nat.add_sub_cancel_left]
      ring

end StandardForm

/-! ## The answer -/

section Answer

variable {p : LinearProgram K} {par : Params K}

omit [Field K] [LinearOrder K] [Exact K] in
theorem checkPair_eq_ok {kind : ConstraintKind} {n rows : ℕ} {a b : Option (Mat K)}
    (h : checkPair kind n a b = .ok rows) : rows = (a.map Mat.rows).getD 0 := by
  unfold checkPair at h
  split at h
  · simpa using h.symm
  · split at h
    · simpa using h.symm
    · cases h
  · cases h

omit [Field K] [LinearOrder K] [Exact K] in
theorem check_eq_ok {sizes : ℕ × ℕ} (h : p.check = .ok sizes) : sizes = (p.me, p.mi) := by
  unfold check at h
  split at h
  · simp only [bind, Except.bind] at h
    split at h
    · cases h
    · next he =>
      split at h
      · cases h
      · next hi =>
        cases h
        rw [checkPair_eq_ok he, checkPair_eq_ok hi]
        rfl
  · cases h

/-- The multipliers of a final tableau, those of negated rows negated. -/
theorem entry_restored_duals {t : Tableau K} {b : Mat K} {flips : Array Bool}
    (hflips : ∀ r < t.m, flips.getD r false = decide (b.get r 0 < 0)) {r : ℕ} (hr : r < t.m) :
    Vec.entry (t.duals.mapIdx fun r d => if flips.getD r false then -d else d) r =
      rowSign b r * -t.grid.get t.m (t.n + r) := by
  have hentry : Vec.entry (t.duals.mapIdx fun r d => if flips.getD r false then -d else d) r =
      if flips.getD r false then - -t.grid.get t.m (t.n + r) else -t.grid.get t.m (t.n + r) := by
    simp [Vec.entry, Array.getD, Tableau.duals, hr]
  rw [hentry, hflips r hr, rowSign]
  by_cases hneg : b.get r 0 < 0
  · simp [hneg]
  · simp [hneg]

/-- An accepted program whose rows have a sign and for which there is room is solved: the result is
that of the final tableau, restored. -/
theorem solve?_eq_of_signed {α : Type} [Scalar α] (par : Params α) {p : LinearProgram α}
    {sizes : ℕ × ℕ} (h : p.check = .ok sizes) (hroom : p.Fits p.me p.mi)
    (hsigned : ∀ r < p.me + p.mi,
      0 ≤ (signedRows (p.standardFormOf p.me p.mi).a (p.standardFormOf p.me p.mi).b).b.get r 0) :
    ∃ trace, p.solve? par = .ok ⟨.ok (p.restore
      (signedRows (p.standardFormOf p.me p.mi).a (p.standardFormOf p.me p.mi).b).flips
      (p.start.solve par).1.solution), trace⟩ := by
  have hform : p.standardFormOf? p.me p.mi = .ok (p.standardFormOf p.me p.mi) :=
    guarded_eq_ok hroom.1
  have hb : (p.standardFormOf p.me p.mi).b.size = ((p.standardFormOf p.me p.mi).a.rows, 1) := rfl
  have hrows := signedRows?_eq_ok hb (Or.inl rfl)
  have hstart := Tableau.ofStandardForm?_eq_ok
    (a := (signedRows (p.standardFormOf p.me p.mi).a (p.standardFormOf p.me p.mi).b).a)
    (b := (signedRows (p.standardFormOf p.me p.mi).a (p.standardFormOf p.me p.mi).b).b)
    (c := (p.standardFormOf p.me p.mi).c) hroom.2 rfl rfl hsigned
  rw [solve?, h, check_eq_ok h]
  simp only [hform, solveForm?, hrows, hstart, bind, Except.bind, pure, Except.pure]
  exact ⟨_, rfl⟩

theorem fits_exact (p : LinearProgram K) (me mi : ℕ) : p.Fits me mi :=
  ⟨StandardForm.fits_exact _ _, Tableau.fits_exact _ _⟩

variable [IsStrictOrderedRing K]

theorem solve?_eq (par : Params K) {sizes : ℕ × ℕ} (h : p.check = .ok sizes) :
    ∃ trace, p.solve? par = .ok ⟨.ok (p.restore
      (signedRows (p.standardFormOf p.me p.mi).a (p.standardFormOf p.me p.mi).b).flips
      (p.start.solve par).1.solution), trace⟩ :=
  solve?_eq_of_signed par h (p.fits_exact _ _) fun _ hr => get_signedRows_b_nonneg (m := p.me + p.mi) rfl hr

theorem final_sound (hpar : par.ExactPivots) (hε : (Scalar.epsilon : K) = 0)
    (hmax : 0 < (Scalar.maxValue : K)) (hratios : p.RatiosBelowMax par) :
    let form := p.standardFormOf p.me p.mi
    let rows := signedRows form.a form.b
    Tableau.Admissible rows.a rows.b form.c (p.start.solve par).1 ∧
      Tableau.Verdict rows.a rows.b form.c par (p.start.solve par).1 :=
  Tableau.solve_sound hpar hε hmax
    (fun _ hr => get_signedRows_b_nonneg (m := p.me + p.mi) rfl hr) hratios

section Final

variable {t : Tableau K}
  (h : Tableau.Admissible
    (signedRows (p.standardFormOf p.me p.mi).a (p.standardFormOf p.me p.mi).b).a
    (signedRows (p.standardFormOf p.me p.mi).a (p.standardFormOf p.me p.mi).b).b
    (p.standardFormOf p.me p.mi).c t)

include h

omit [IsStrictOrderedRing K] in
theorem m_final : t.m = p.me + p.mi := h.represents.m_eq

omit [IsStrictOrderedRing K] in
theorem n_final : t.n = p.n + p.mi := h.represents.n_eq

omit [IsStrictOrderedRing K] in
theorem entry_restored_point {j : ℕ} (hj : j < p.n) :
    Vec.entry (t.point.extract 0 p.n) j = t.basicPoint j := by
  have hlt : j < t.n := by rw [n_final h]; omega
  rw [← h.represents.entry_point h.bookkept hlt]
  simp [Vec.entry, Array.getD, hj]

omit [IsStrictOrderedRing K] in
theorem size_restored_point : (t.point.extract 0 p.n).size = p.n := by
  have := n_final h
  simp only [Array.size_extract, Tableau.size_point]
  omega

theorem isFeasible_restored_point (hphase : t.phase = .two) :
    p.IsFeasible (Vec.entry (t.point.extract 0 p.n)) := by
  have hsol := (nonnegSolution_signedRows_iff (m := p.me + p.mi) (n := p.n + p.mi) rfl rfl _).1
    (h.nonnegSolution_basicPoint hphase)
  exact (p.isFeasible_of_nonnegSolution hsol).congr fun j hj => (entry_restored_point h hj).symm

omit [IsStrictOrderedRing K] in
theorem cost_final : t.cost = p.costAt (Vec.entry (t.point.extract 0 p.n)) := by
  rw [h.represents.cost_basicPoint h.bookkept, n_final h, costAt_form]
  exact p.costAt_congr fun j hj => (entry_restored_point h hj).symm

omit [IsStrictOrderedRing K] in
/-- The reduced costs in terms of the multipliers of the rows as they were given. -/
theorem reducedCost_final {y : ℕ → K}
    (hy : ∀ r < t.m, y r = rowSign (p.standardFormOf p.me p.mi).b r * -t.grid.get t.m (t.n + r))
    {j : ℕ} (hj : j < p.n + p.mi) :
    t.grid.get t.m j = (p.standardFormOf p.me p.mi).c.get j 0 -
      ∑ r ∈ range (p.me + p.mi), (p.standardFormOf p.me p.mi).a.get r j * y r := by
  have hjn : j < t.n := by rw [n_final h]; exact hj
  rw [h.represents.reducedCost_eq hjn, m_final h]
  congr 1
  refine sum_congr rfl fun r hr => ?_
  have hr := mem_range.1 hr
  rw [get_signedRows_a (m := p.me + p.mi) (n := p.n + p.mi) rfl hr hj,
    hy r (by rw [m_final h]; exact hr)]
  rw [m_final h]
  ring

omit [IsStrictOrderedRing K] in
/-- The cost in terms of the multipliers of the rows as they were given. -/
theorem cost_final_eq_duals {y : ℕ → K}
    (hy : ∀ r < t.m, y r = rowSign (p.standardFormOf p.me p.mi).b r * -t.grid.get t.m (t.n + r)) :
    t.cost = ∑ r ∈ range p.me, entry p.be r 0 * y r +
      ∑ i ∈ range p.mi, entry p.bi i 0 * y (p.me + i) := by
  have hsum : t.cost = ∑ r ∈ range (p.me + p.mi),
      (p.standardFormOf p.me p.mi).b.get r 0 * y r := by
    rw [h.represents.cost_eq, m_final h]
    refine sum_congr rfl fun r hr => ?_
    have hr := mem_range.1 hr
    rw [get_signedRows_b (m := p.me + p.mi) rfl hr, hy r (by rw [m_final h]; exact hr)]
    rw [m_final h]
    ring
  rw [hsum, sum_range_add]
  congr 1
  · refine sum_congr rfl fun r hr => ?_
    have hr := mem_range.1 hr
    rw [get_form_bound p (by omega), if_pos hr]
  · refine sum_congr rfl fun i hi => ?_
    have hi := mem_range.1 hi
    rw [get_form_bound p (by omega), if_neg (by omega), Nat.add_sub_cancel_left]

omit [IsStrictOrderedRing K] in
theorem reducedCost_structural {y : ℕ → K}
    (hy : ∀ r < t.m, y r = rowSign (p.standardFormOf p.me p.mi).b r * -t.grid.get t.m (t.n + r))
    {j : ℕ} (hj : j < p.n) :
    t.grid.get t.m j = p.c.get j 0 - ∑ r ∈ range p.me, entry p.ae r j * y r -
      ∑ i ∈ range p.mi, entry p.ai i j * y (p.me + i) := by
  rw [reducedCost_final h hy (by omega), get_form_cost p (by omega), if_pos hj, sum_range_add,
    ← sub_sub]
  congr 1
  · congr 1
    refine sum_congr rfl fun r hr => ?_
    have hr := mem_range.1 hr
    rw [get_form_structural p (by omega) hj, if_pos hr]
  · refine sum_congr rfl fun i hi => ?_
    have hi := mem_range.1 hi
    rw [get_form_structural p (by omega) hj, if_neg (by omega), Nat.add_sub_cancel_left]

omit [IsStrictOrderedRing K] in
theorem reducedCost_slack {y : ℕ → K}
    (hy : ∀ r < t.m, y r = rowSign (p.standardFormOf p.me p.mi).b r * -t.grid.get t.m (t.n + r))
    {i : ℕ} (hi : i < p.mi) : t.grid.get t.m (p.n + i) = -y (p.me + i) := by
  rw [reducedCost_final h hy (by omega), get_form_cost p (by omega), if_neg (by omega), zero_sub,
    sum_eq_single (p.me + i)]
  · rw [get_form_slack p (by omega) hi, if_pos rfl, one_mul]
  · intro r hr hne
    rw [get_form_slack p (mem_range.1 hr) hi, if_neg (Ne.symm hne), zero_mul]
  · intro hnot
    exact absurd (mem_range.2 (by omega)) hnot

/-- No feasible point costs less than the final cost, up to the threshold for each unit. -/
theorem cost_final_le {ε : K} (hred : ∀ j < t.n, -ε ≤ t.grid.get t.m j) {x : ℕ → K}
    (hx : p.IsFeasible x) :
    t.cost - ε * (∑ j ∈ range p.n, x j + ∑ i ∈ range p.mi, p.slack i x) ≤ p.costAt x := by
  have hform := p.nonnegSolution_withSlacks hx
  have hsol :=
    (nonnegSolution_signedRows_iff (m := p.me + p.mi) (n := p.n + p.mi) rfl rfl _).2 hform
  have hsum := h.represents.sum_sub_rhs
    (fun i hi => hsol.solves i (by rw [← h.represents.m_eq]; exact hi)) (r := t.m) (by omega)
  rw [if_pos rfl, n_final h, costAt_form,
    p.costAt_congr fun j hj => p.withSlacks_of_lt x hj] at hsum
  have hlow : ∑ j ∈ range (p.n + p.mi), -ε * p.withSlacks x j ≤
      ∑ j ∈ range (p.n + p.mi), t.grid.get t.m j * p.withSlacks x j := by
    refine sum_le_sum fun j hj => ?_
    have hj := mem_range.1 hj
    exact mul_le_mul_of_nonneg_right (hred j (by rw [n_final h]; exact hj)) (hform.nonneg j hj)
  have hsplit : ∑ j ∈ range (p.n + p.mi), p.withSlacks x j =
      ∑ j ∈ range p.n, x j + ∑ i ∈ range p.mi, p.slack i x := by
    rw [sum_range_add]
    congr 1
    · exact sum_congr rfl fun j hj => p.withSlacks_of_lt x (mem_range.1 hj)
    · exact sum_congr rfl fun i _ => p.withSlacks_slack x i
  rw [← mul_sum, hsplit] at hlow
  have hcost : t.cost = -t.rhs t.m := rfl
  linarith

end Final

theorem isCertified_of_optimal {t : Tableau K} {flips : Array Bool}
    (h : Tableau.Admissible
      (signedRows (p.standardFormOf p.me p.mi).a (p.standardFormOf p.me p.mi).b).a
      (signedRows (p.standardFormOf p.me p.mi).a (p.standardFormOf p.me p.mi).b).b
      (p.standardFormOf p.me p.mi).c t)
    (hflips : ∀ r < t.m,
      flips.getD r false = decide ((p.standardFormOf p.me p.mi).b.get r 0 < 0))
    (hphase : t.phase = .two) {ε : K} (hred : ∀ j < t.n, -ε ≤ t.grid.get t.m j) :
    p.IsCertified ε (p.restore flips t.solution) := by
  have hy : ∀ r < t.m,
      Vec.entry (t.duals.mapIdx fun r d => if flips.getD r false then -d else d) r =
        rowSign (p.standardFormOf p.me p.mi).b r * -t.grid.get t.m (t.n + r) :=
    fun r hr => entry_restored_duals hflips hr
  refine ⟨size_restored_point h, isFeasible_restored_point h hphase, cost_final h,
    ⟨t.duals.mapIdx fun r d => if flips.getD r false then -d else d, rfl, ?_,
      cost_final_eq_duals h hy, fun j hj => ?_, fun i hi => ?_⟩,
    fun x hx => cost_final_le h hred hx⟩
  · rw [Array.size_mapIdx, ← m_final h]
    simp [Tableau.duals]
  · rw [← reducedCost_structural h hy hj]
    exact hred j (by rw [n_final h]; omega)
  · have := hred (p.n + i) (by rw [n_final h]; omega)
    rw [reducedCost_slack h hy hi] at this
    exact neg_le_neg_iff.1 this

/-- The answer that is read off a tableau with a true verdict is true of the program. -/
theorem answers_of_verdict {t : Tableau K} {flips : Array Bool}
    (h : Tableau.Admissible
      (signedRows (p.standardFormOf p.me p.mi).a (p.standardFormOf p.me p.mi).b).a
      (signedRows (p.standardFormOf p.me p.mi).a (p.standardFormOf p.me p.mi).b).b
      (p.standardFormOf p.me p.mi).c t)
    (hverdict : Tableau.Verdict
      (signedRows (p.standardFormOf p.me p.mi).a (p.standardFormOf p.me p.mi).b).a
      (signedRows (p.standardFormOf p.me p.mi).a (p.standardFormOf p.me p.mi).b).b
      (p.standardFormOf p.me p.mi).c par t)
    (hflips : ∀ r < t.m,
      flips.getD r false = decide ((p.standardFormOf p.me p.mi).b.get r 0 < 0)) :
    p.Answers par.pivotThreshold (p.restore flips t.solution) := by
  have hiff := fun x => nonnegSolution_signedRows_iff (a := (p.standardFormOf p.me p.mi).a)
    (b := (p.standardFormOf p.me p.mi).b) (m := p.me + p.mi) (n := p.n + p.mi) rfl rfl x
  have hstatus : (p.restore flips t.solution).status = t.status := rfl
  unfold Tableau.Verdict at hverdict
  constructor <;> rw [hstatus]
  case optimal =>
    intro hs
    rw [hs] at hverdict
    exact isCertified_of_optimal h hflips hverdict.1 hverdict.2
  case infeasible =>
    rintro hs ⟨x, hx⟩
    rw [hs] at hverdict
    exact hverdict _ ((hiff _).2 (p.nonnegSolution_withSlacks hx))
  case unbounded =>
    intro hs
    rw [hs] at hverdict
    refine ⟨⟨_, isFeasible_restored_point h hverdict.1⟩, fun bound => ?_⟩
    obtain ⟨z, hz, hlt⟩ := hverdict.2 bound
    refine ⟨z, p.isFeasible_of_nonnegSolution ((hiff z).1 hz), ?_⟩
    rw [← costAt_form]
    exact hlt
  case feasible =>
    intro hs
    have hphase : t.phase = .two := by
      rcases hs with hs | hs
      · rwa [hs] at hverdict
      · rwa [hs] at hverdict
    exact ⟨size_restored_point h, isFeasible_restored_point h hphase⟩
  case status =>
    constructor
    · intro hs
      rwa [hs] at hverdict
    · intro hs
      rwa [hs] at hverdict

/-- Every accepted program gets an answer, and the answer is true of the program: with exact
arithmetic, tolerances of zero and any threshold of reduced costs, after any number of pivots. -/
theorem solution_answers (par : Params K) (p : LinearProgram K) (hpar : par.ExactPivots)
    (hε : (Scalar.epsilon : K) = 0) (hmax : 0 < (Scalar.maxValue : K))
    (hratios : p.RatiosBelowMax par) {sizes : ℕ × ℕ} (hcheck : p.check = .ok sizes) :
    ∃ out s, p.solve? par = .ok out ∧ out.result = .ok s ∧ p.Answers par.pivotThreshold s := by
  obtain ⟨trace, hsolve⟩ := solve?_eq par hcheck
  obtain ⟨hfinal, hverdict⟩ := final_sound (p := p) hpar hε hmax hratios
  refine ⟨_, _, hsolve, rfl, answers_of_verdict hfinal hverdict fun r hr => ?_⟩
  rw [m_final hfinal] at hr
  have hr' : r < (p.standardFormOf p.me p.mi).a.rows := hr
  simp [signedRows, Array.getD, hr']

end Answer

/-- Minimise `-x₀ - 2 x₁` subject to `x₀ + x₁ = 4`, `-x₀ ≤ -1` and `x₁ ≤ 3`. -/
def sample : LinearProgram ℚ where
  c := .ofFn (.general 2 1) fun r _ => if r = 0 then -1 else -2
  ae := some (.ofFn (.general 1 2) fun _ _ => 1)
  be := some (.ofFn (.general 1 1) fun _ _ => 4)
  ai := some (.ofFn (.general 2 2) fun r c => if r ≠ c then 0 else if r = 0 then -1 else 1)
  bi := some (.ofFn (.general 2 1) fun r _ => if r = 0 then -1 else 3)

/-- Parameters of exact arithmetic for runs of at most ten pivots. -/
def sampleParams : Params ℚ := ⟨10, 10, 0, 0, ⟨0, 0⟩, ⟨0, 0⟩, ⟨0, 0⟩, ⟨0, 0⟩⟩

theorem solution_answers_sample :
    letI := Exact.rational 1000
    ∃ out s, sample.solve? sampleParams = .ok out ∧ out.result = .ok s ∧ s.status = .optimal ∧
      sample.Answers 0 s := by
  let := Exact.rational 1000
  have hpar : sampleParams.ExactPivots := ⟨⟨⟨rfl, rfl⟩, ⟨rfl, rfl⟩⟩, le_refl 0⟩
  have hratios : sample.RatiosBelowMax sampleParams := by decide +kernel
  have hcheck : sample.check = .ok (1, 2) := rfl
  obtain ⟨out, s, hsolve, hs, h⟩ := solution_answers sampleParams sample hpar rfl
    (by decide +kernel) hratios hcheck
  have hstatus : (sample.solve? sampleParams).map
      (fun out => out.result.map Solution.status) = .ok (.ok .optimal) := by
    decide +kernel
  rw [hsolve, Except.map, hs, Except.map] at hstatus
  exact ⟨out, s, hsolve, hs, Except.ok.inj (Except.ok.inj hstatus), h⟩

end LinearProgram

end QuadProg
