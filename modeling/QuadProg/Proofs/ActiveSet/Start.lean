import QuadProg.Proofs.ActiveSet.Stages
import QuadProg.Proofs.QuadraticProgram
import QuadProg.Proofs.StandardForm

/-!
# The starting point in exact arithmetic

Whichever way it was found, the point at which the iterations start satisfies the constraints: it
was offered and passed the test, there are no constraints, or it is the difference of the two parts
of a solution of the linear program.
-/

namespace QuadProg

open Finset

/-- All tolerances and the threshold of pivots are zero. -/
structure Params.IsExact {K : Type} [Field K] [LinearOrder K] [Exact K] (par : Params K) :
    Prop extends par.ExactRatios where
  zeroThreshold : par.zeroThreshold = 0
  slack : par.slack.IsExact
  solution : par.solution.IsExact

namespace ActiveSet

/-! ## The test of a point -/

section Rows

variable {α : Type} [Scalar α] {par : Params α} {p : QuadraticProgram α}

/-- The test looks at each row for itself. -/
theorem accepted_iff_rows {x : Vec α} {accepted : Bool} (h : isFeasible? par p x = .ok accepted) :
    accepted = true ↔
      (∀ r < p.me, par.slack.differ (p.be.get r 0) ((p.ae.mulVec x).entry r) = false) ∧
        ∀ i < p.mi, (p.ai.mulVec x).entry i ≤ p.bound i ∨
          par.slack.differ (p.bound i) ((p.ai.mulVec x).entry i) = false := by
  rw [QuadraticProgram.isFeasible?_eq_ok h]
  simp only [Bool.not_eq_true']

end Rows

variable {K : Type} [Field K] [LinearOrder K] [Exact K]
variable {par : Params K} {p : QuadraticProgram K}

/-- The point satisfies the constraints up to the tolerance of slacks. -/
structure IsNear (par : Params K) (p : QuadraticProgram K) (x : ℕ → K) : Prop where
  equality : ∀ r < p.me, par.slack.differ (p.be.get r 0) (p.ae.lhs r x) = false
  inequality : ∀ i < p.mi, p.ai.lhs i x ≤ p.bound i ∨
    par.slack.differ (p.bound i) (p.ai.lhs i x) = false

theorem accepted_iff {x : Vec K} {accepted : Bool} (h : isFeasible? par p x = .ok accepted) :
    accepted = true ↔ IsNear par p x.entry := by
  rw [accepted_iff_rows h]
  constructor
  · rintro ⟨hequality, hinequality⟩
    refine ⟨fun r hr => ?_, fun i hi => ?_⟩
    · rw [← Mat.entry_mulVec_eq_lhs hr]
      exact hequality r hr
    · rw [← Mat.entry_mulVec_eq_lhs hi]
      exact hinequality i hi
  · intro hx
    refine ⟨fun r hr => ?_, fun i hi => ?_⟩
    · rw [Mat.entry_mulVec_eq_lhs hr]
      exact hx.equality r hr
    · rw [Mat.entry_mulVec_eq_lhs hi]
      exact hx.inequality i hi

/-- Without tolerance the test accepts exactly the points that satisfy the constraints. -/
theorem isFeasible_iff [IsStrictOrderedRing K] (hslack : par.slack.IsExact) {x : Vec K}
    {accepted : Bool} (h : isFeasible? par p x = .ok accepted) :
    accepted = true ↔ p.IsFeasible x.entry := by
  rw [accepted_iff h]
  have hsame : ∀ a b : K, par.slack.differ a b = false ↔ a = b := by
    intro a b
    rw [Tolerance.differ_eq_decide hslack, decide_eq_false_iff_not, not_not]
  constructor
  · intro hx
    refine ⟨fun r hr => ((hsame _ _).1 (hx.equality r hr)).symm, fun i hi => ?_⟩
    exact (hx.inequality i hi).elim id fun heq => ((hsame _ _).1 heq).ge
  · intro hx
    exact ⟨fun r hr => (hsame _ _).2 (hx.equality r hr).symm, fun i hi =>
      Or.inl (hx.inequality i hi)⟩

/-! ## The linear program -/

section Program

variable (p)

theorem get_startMatrix {r c : ℕ} (hr : r < p.me + p.mi) (hc : c < p.n + p.n + p.mi) :
    (startMatrix p).get r c =
      let a := if r < p.me then p.ae else p.ai
      let i := if r < p.me then r else r - p.me
      if c < p.n then a.get i c
      else if c < p.n + p.n then -a.get i (c - p.n)
      else if p.me ≤ r ∧ c - p.n - p.n = i then 1
      else 0 := by
  refine (Mat.get_ofFn _ hr hc).trans ?_
  by_cases hlt : r < p.me
  · simp only [hlt, if_true]
  · simp only [hlt, if_false]

/-- The three blocks of a row of the linear program. -/
theorem lhs_startMatrix (r : ℕ) (z : ℕ → K) :
    (startMatrix p).lhs r z = ∑ j ∈ range p.n, (startMatrix p).get r j * z j +
      ∑ j ∈ range p.n, (startMatrix p).get r (p.n + j) * z (p.n + j) +
      ∑ k ∈ range p.mi, (startMatrix p).get r (p.n + p.n + k) * z (p.n + p.n + k) := by
  show ∑ c ∈ range (p.n + p.n + p.mi), _ = _
  rw [sum_range_add, sum_range_add]

/-- The part of a row that does not belong to slacks, if the row has the entries `a`. -/
theorem sum_parts {a : Mat K} {i r : ℕ} (z : ℕ → K)
    (hplus : ∀ j < p.n, (startMatrix p).get r j = a.get i j)
    (hminus : ∀ j < p.n, (startMatrix p).get r (p.n + j) = -a.get i j) (ha : a.cols = p.n) :
    ∑ j ∈ range p.n, (startMatrix p).get r j * z j +
      ∑ j ∈ range p.n, (startMatrix p).get r (p.n + j) * z (p.n + j) =
        a.lhs i fun j => z j - z (p.n + j) := by
  rw [Mat.lhs, ha, ← sum_add_distrib]
  refine sum_congr rfl fun j hj => ?_
  rw [hplus j (mem_range.1 hj), hminus j (mem_range.1 hj)]
  ring

variable {p}

theorem lhs_startMatrix_equality (hp : p.WellSized) {r : ℕ} (hr : r < p.me) (z : ℕ → K) :
    (startMatrix p).lhs r z = p.ae.lhs r fun j => z j - z (p.n + j) := by
  have hget := fun c => get_startMatrix p (r := r) (c := c) (by omega)
  simp only [if_pos hr] at hget
  rw [lhs_startMatrix, sum_parts p z ?_ ?_ hp.ae_cols, add_eq_left.2]
  · refine sum_eq_zero fun k hk => ?_
    have hk := mem_range.1 hk
    rw [hget _ (by omega), if_neg (by omega), if_neg (by omega), if_neg (by omega), zero_mul]
  · intro j hj
    rw [hget _ (by omega), if_pos hj]
  · intro j hj
    rw [hget _ (by omega), if_neg (by omega), if_pos (by omega), Nat.add_sub_cancel_left]

theorem lhs_startMatrix_inequality (hp : p.WellSized) {i : ℕ} (hi : i < p.mi) (z : ℕ → K) :
    (startMatrix p).lhs (p.me + i) z =
      (p.ai.lhs i fun j => z j - z (p.n + j)) + z (p.n + p.n + i) := by
  have hget := fun c => get_startMatrix p (r := p.me + i) (c := c) (by omega)
  simp only [if_neg (show ¬ p.me + i < p.me by omega), Nat.add_sub_cancel_left] at hget
  rw [lhs_startMatrix, sum_parts p z ?_ ?_ hp.ai_cols]
  · congr 1
    rw [sum_eq_single_of_mem i (mem_range.2 hi)]
    · rw [hget _ (by omega), if_neg (by omega), if_neg (by omega), if_pos (by omega), one_mul]
    · intro k hk hne
      have hk := mem_range.1 hk
      rw [hget _ (by omega), if_neg (by omega), if_neg (by omega), if_neg (by omega), zero_mul]
  · intro j hj
    rw [hget _ (by omega), if_pos hj]
  · intro j hj
    rw [hget _ (by omega), if_neg (by omega), if_pos (by omega), Nat.add_sub_cancel_left]

theorem shape_bounds {α : Type} [Scalar α] {p : QuadraticProgram α} (hp : p.WellSized) :
    (p.be.above p.bi).shape = .general (p.me + p.mi) 1 := by
  rw [← hp.be_rows, ← hp.bi_rows, ← hp.be_cols]
  rfl

theorem size_bounds {α : Type} [Scalar α] {p : QuadraticProgram α} (hp : p.WellSized) :
    (p.be.above p.bi).size = (p.me + p.mi, 1) :=
  Prod.ext (congrArg Shape.rows (shape_bounds hp)) (congrArg Shape.cols (shape_bounds hp))

theorem get_bounds_equality (hp : p.WellSized) {r : ℕ} (hr : r < p.me) :
    (p.be.above p.bi).get r 0 = p.be.get r 0 := by
  have hrows := hp.be_rows
  have hcols := hp.be_cols
  exact Mat.get_above_upper _ _ (by omega) (by omega)

theorem get_bounds_inequality (hp : p.WellSized) {i : ℕ} (hi : i < p.mi) :
    (p.be.above p.bi).get (p.me + i) 0 = p.bound i := by
  have hrows := hp.bi_rows
  have hcols := hp.be_cols
  rw [← hp.be_rows]
  exact Mat.get_above_lower _ _ (by omega) (by omega)

/-- The difference of the two parts of a solution of the linear program satisfies the constraints.
-/
theorem isFeasible_of_nonnegSolution [IsStrictOrderedRing K] (hp : p.WellSized) {z : ℕ → K}
    (h : NonnegSolution (startMatrix p) (p.be.above p.bi) z) :
    p.IsFeasible fun j => z j - z (p.n + j) := by
  refine ⟨fun r hr => ?_, fun i hi => ?_⟩
  · have hrow := h.solves r (show r < p.me + p.mi by omega)
    rwa [lhs_startMatrix_equality hp hr, get_bounds_equality hp hr] at hrow
  · have hrow := h.solves (p.me + i) (show p.me + i < p.me + p.mi by omega)
    have hslack := h.nonneg (p.n + p.n + i) (show _ < p.n + p.n + p.mi by omega)
    rw [lhs_startMatrix_inequality hp hi, get_bounds_inequality hp hi] at hrow
    linarith

/-- The point of the linear program that stands for `x`: its positive part, its negative part and
the slacks of the inequalities. -/
def splitPoint (p : QuadraticProgram K) (x : ℕ → K) (c : ℕ) : K :=
  if c < p.n then max (x c) 0
  else if c < p.n + p.n then max (-x (c - p.n)) 0
  else p.bound (c - p.n - p.n) - p.ai.lhs (c - p.n - p.n) x

theorem splitPoint_slack (x : ℕ → K) (i : ℕ) :
    splitPoint p x (p.n + p.n + i) = p.bound i - p.ai.lhs i x := by
  rw [splitPoint, if_neg (by omega), if_neg (by omega),
    show p.n + p.n + i - p.n - p.n = i by omega]

theorem splitPoint_nonneg [IsStrictOrderedRing K] {x : ℕ → K} (h : p.IsFeasible x) {c : ℕ}
    (hc : c < p.n + p.n + p.mi) : 0 ≤ splitPoint p x c := by
  unfold splitPoint
  split
  · exact le_max_right _ _
  · split
    · exact le_max_right _ _
    · exact sub_nonneg.2 (h.inequality _ (by omega))

/-- The two parts of a point differ by its entry. -/
theorem splitPoint_sub [IsStrictOrderedRing K] (x : ℕ → K) {j : ℕ} (hj : j < p.n) :
    splitPoint p x j - splitPoint p x (p.n + j) = x j := by
  rw [splitPoint, if_pos hj, splitPoint, if_neg (by omega), if_pos (by omega),
    Nat.add_sub_cancel_left]
  rcases le_total (x j) 0 with hneg | hpos
  · rw [max_eq_right hneg, max_eq_left (neg_nonneg.2 hneg), zero_sub, neg_neg]
  · rw [max_eq_left hpos, max_eq_right (neg_nonpos.2 hpos), sub_zero]

theorem lhs_splitPoint [IsStrictOrderedRing K] {a : Mat K} (ha : a.cols = p.n) (i : ℕ)
    (x : ℕ → K) : (a.lhs i fun j => splitPoint p x j - splitPoint p x (p.n + j)) = a.lhs i x :=
  Mat.lhs_congr fun _ hj => splitPoint_sub x (ha ▸ hj)

/-- A point that satisfies the constraints makes a solution of the linear program. -/
theorem exists_nonnegSolution_of_isFeasible [IsStrictOrderedRing K] (hp : p.WellSized) {x : ℕ → K}
    (h : p.IsFeasible x) : ∃ z, NonnegSolution (startMatrix p) (p.be.above p.bi) z := by
  refine ⟨splitPoint p x, fun c hc => splitPoint_nonneg h hc, fun r hr => ?_⟩
  have hr : r < p.me + p.mi := hr
  by_cases hlt : r < p.me
  · rw [lhs_startMatrix_equality hp hlt, lhs_splitPoint hp.ae_cols, h.equality r hlt,
      get_bounds_equality hp hlt]
  · obtain ⟨i, rfl⟩ := Nat.exists_eq_add_of_le (not_lt.1 hlt)
    have hi : i < p.mi := by omega
    rw [lhs_startMatrix_inequality hp hi, lhs_splitPoint hp.ai_cols, splitPoint_slack,
      get_bounds_inequality hp hi]
    ring

theorem startTableau_cases {offer : Option (Vec K)} {t : Tableau K}
    (h : startTableau? p offer = .ok t) :
    ∃ c, t = Tableau.ofStandardForm (signedRows (startMatrix p) (p.be.above p.bi)).a
        (signedRows (startMatrix p) (p.be.above p.bi)).b c ∧
      ∀ r < p.me + p.mi, 0 ≤ (signedRows (startMatrix p) (p.be.above p.bi)).b.get r 0 := by
  obtain ⟨g, -, h⟩ := Checked.bind_eq_ok_iff.1 h
  obtain ⟨_, -, h⟩ := Checked.bind_eq_ok_iff.1 h
  obtain ⟨_, -, h⟩ := Checked.bind_eq_ok_iff.1 h
  obtain ⟨bounds, hbounds, h⟩ := Checked.bind_eq_ok_iff.1 h
  obtain ⟨-, rfl⟩ := guarded_eq_ok_iff.1 (Memory.eq_of_inRoom? hbounds)
  obtain ⟨rows, hrows, h⟩ := Checked.bind_eq_ok_iff.1 h
  obtain ⟨_, -, hrows⟩ := Checked.bind_eq_ok_iff.1 hrows
  obtain ⟨-, rfl⟩ := guarded_eq_ok_iff.1 hrows
  obtain ⟨_, -, h⟩ := Checked.bind_eq_ok_iff.1 h
  obtain ⟨_, -, h⟩ := Checked.bind_eq_ok_iff.1 h
  obtain ⟨hnonneg, rfl⟩ := guarded_eq_ok_iff.1 h
  exact ⟨_, rfl, fun r hr => hnonneg r (List.mem_range.2 hr)⟩

/-- The tableau of the search is that of a program in standard form that has a solution exactly if
the constraints can be satisfied. -/
theorem startTableau_spec [IsStrictOrderedRing K] (hp : p.WellSized) {offer : Option (Vec K)}
    {t : Tableau K} (h : startTableau? p offer = .ok t) :
    ∃ a b c, t = Tableau.ofStandardForm a b c ∧ (∀ r < a.rows, 0 ≤ b.get r 0) ∧
      ((∃ z, NonnegSolution a b z) ↔ ∃ x, p.IsFeasible x) := by
  obtain ⟨c, ht, hnonneg⟩ := startTableau_cases h
  refine ⟨_, _, c, ht, hnonneg, ?_⟩
  have hiff := nonnegSolution_signedRows_iff (a := startMatrix p) (m := p.me + p.mi) rfl
    (shape_bounds hp)
  constructor
  · rintro ⟨z, hz⟩
    exact ⟨_, isFeasible_of_nonnegSolution hp ((hiff z).1 hz)⟩
  · rintro ⟨x, hx⟩
    obtain ⟨z, hz⟩ := exists_nonnegSolution_of_isFeasible hp hx
    exact ⟨z, (hiff z).2 hz⟩

end Program

/-! ## The search -/

section Search

variable [IsStrictOrderedRing K] {s : State K} {found : Search K}

omit [IsStrictOrderedRing K] in
theorem entry_pointOf {n : ℕ} {solution x : Vec K} {j : ℕ} (hj : j < n) (hx : j < x.size) :
    (pointOf n solution x).entry j = solution.entry j - solution.entry (n + j) := by
  simp [pointOf, Vec.entry, Array.getD, hx, hj]

theorem isFeasible_of_searchByProgram (hpar : par.ExactRatios) (hε : (Scalar.epsilon : K) = 0)
    (hp : p.WellSized) (hx : s.x.size = p.n) {offer : Option (Vec K)}
    (h : searchByProgram? par p s offer = .ok found) (hfound : found.status = .feasible) :
    found.state.x.size = p.n ∧ p.IsFeasible found.state.x.entry := by
  obtain ⟨t, ht, h⟩ := Checked.bind_eq_ok_iff.1 h
  obtain ⟨c, rfl, hnonneg⟩ := startTableau_cases ht
  dsimp only at h
  split at h
  · next hstatus =>
    obtain ⟨hfinal, hphase⟩ := Tableau.solve_phaseTwo
      (a := (signedRows (startMatrix p) (p.be.above p.bi)).a) hpar hε hnonneg hstatus
    obtain ⟨_, -, h⟩ := Checked.bind_eq_ok_iff.1 h
    obtain rfl := Except.ok.inj h
    generalize (Tableau.solve par _).1 = t at *
    have hsolution := (nonnegSolution_signedRows_iff (m := p.me + p.mi) rfl (shape_bounds hp) _).1
      (hfinal.nonnegSolution_basicPoint hphase)
    have hn : t.n = p.n + p.n + p.mi := hfinal.represents.n_eq
    have hentry : ∀ j < t.n, t.point.entry j = t.basicPoint j := fun j hj =>
      hfinal.represents.entry_point hfinal.bookkept hj
    refine ⟨(Array.size_mapIdx ..).trans hx, ?_⟩
    refine (isFeasible_of_nonnegSolution hp hsolution).congr hp fun j hj => ?_
    rw [← hentry j (by omega), ← hentry (p.n + j) (by omega)]
    exact (entry_pointOf hj (by rw [hx]; exact hj)).symm
  · obtain rfl := Except.ok.inj h
    dsimp only at hfound
    split at hfound <;> cases hfound

theorem isFeasible_of_searchAnew (hpar : par.ExactRatios) (hε : (Scalar.epsilon : K) = 0)
    (hp : p.WellSized) (hx : s.x.size = p.n) {offer : Option (Vec K)}
    (h : searchAnew? par p s offer = .ok found) (hfound : found.status = .feasible) :
    found.state.x.size = p.n ∧ p.IsFeasible found.state.x.entry := by
  unfold searchAnew? at h
  split at h
  · exact isFeasible_of_searchByProgram hpar hε hp hx h hfound
  · next hfree =>
    obtain rfl := Except.ok.inj h
    have hnone : ¬ 0 < p.me + p.mi := fun hpos => hfree (decide_eq_true hpos)
    exact ⟨Vec.size_zeros _, fun r hr => by omega, fun i hi => by omega⟩

/-- The point that a search finds satisfies the constraints. -/
theorem isFeasible_of_search (hpar : par.ExactRatios) (hε : (Scalar.epsilon : K) = 0)
    (hslack : par.slack.IsExact) (hp : p.WellSized) (hx : s.x.size = p.n)
    {offer : Option (Vec K)} (h : search? par p s offer = .ok found)
    (hfound : found.status = .feasible) :
    found.state.x.size = p.n ∧ p.IsFeasible found.state.x.entry := by
  unfold search? at h
  split at h
  · exact isFeasible_of_searchAnew hpar hε hp hx h hfound
  · obtain ⟨x, hcopy, h⟩ := Checked.bind_eq_ok_iff.1 h
    obtain ⟨hsize, rfl⟩ := guarded_eq_ok_iff.1 hcopy
    obtain ⟨accepted, htest, h⟩ := Checked.bind_eq_ok_iff.1 h
    split at h
    · next haccepted =>
      obtain rfl := Except.ok.inj h
      exact ⟨hsize.trans hx, (isFeasible_iff hslack htest).1 haccepted⟩
    · exact isFeasible_of_searchAnew hpar hε hp (hsize.trans hx) h hfound

end Search

end ActiveSet

end QuadProg
