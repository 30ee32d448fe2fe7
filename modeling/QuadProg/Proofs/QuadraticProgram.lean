import QuadProg.ActiveSet.State
import QuadProg.Proofs.Factor.Rank
import QuadProg.Proofs.QuadraticForm
import QuadProg.QuadraticProgram
import QuadProg.Status

/-!
# Quadratic programs in exact arithmetic

The sizes of an accepted program fit together, and its equality constraints are independent. The
objective along a line is a parabola; at a feasible point where the gradient is balanced by
multipliers of the right sign it is least among all feasible points (`objectiveAt_le`).
-/

namespace QuadProg

open Finset

namespace QuadraticProgram

/-- The matrices of the program have the sizes that its numbers of variables and constraints ask
for. -/
structure WellSized {α : Type} [Scalar α] (p : QuadraticProgram α) : Prop where
  q_rows : p.q.rows = p.n
  q_cols : p.q.cols = p.n
  c_cols : p.c.cols = 1
  ae_cols : p.ae.cols = p.n
  be_rows : p.be.rows = p.me
  be_cols : p.be.cols = 1
  ai_cols : p.ai.cols = p.n
  bi_rows : p.bi.rows = p.mi
  bi_cols : p.bi.cols = 1

/-- The program was built from its data. -/
def IsBuilt {α : Type} [Scalar α] (p : QuadraticProgram α) : Prop :=
  ∃ q c ae be ai bi, p = ofData q c ae be ai bi

section Check

variable {α : Type} [Scalar α]

theorem pair_sizes {kind : ConstraintKind} {n : ℕ} {a b : Option (Mat α)}
    (h : defectOf (checkPair kind n a b) = []) :
    (a.getD (Mat.zeros (.general 0 n))).cols = n ∧
      (b.getD (Mat.zeros (.general 0 1))).rows = (a.getD (Mat.zeros (.general 0 n))).rows ∧
      (b.getD (Mat.zeros (.general 0 1))).cols = 1 := by
  rcases a with _ | a <;> rcases b with _ | b
  · exact ⟨rfl, rfl, rfl⟩
  · cases h
  · cases h
  · by_cases hsizes : a.cols = n ∧ b.size = (a.rows, 1)
    · exact ⟨hsizes.1, congrArg Prod.fst hsizes.2, congrArg Prod.snd hsizes.2⟩
    · rw [checkPair, if_neg hsizes] at h
      cases h

/-- An accepted program has no defect, and its quadratic and linear term fit. -/
theorem check_eq_ok {p : QuadraticProgram α} {threshold : α} (h : p.check threshold = .ok ()) :
    p.defects = [] ∧ (p.q.size = (p.n, p.n) ∧ p.c.size = (p.n, 1)) ∧
      (p.me = 0 ∨ p.ae.rank threshold = p.me) := by
  unfold check at h
  split at h
  · cases h
  · next hdefects =>
    split at h
    · next hsizes =>
      refine ⟨hdefects, hsizes, ?_⟩
      split at h
      · next hme => exact Or.inl hme
      · dsimp only at h
        split at h
        · next hrank => exact Or.inr hrank
        · cases h
    · cases h

theorem IsBuilt.wellSized {p : QuadraticProgram α} (hp : p.IsBuilt) {threshold : α}
    (h : p.check threshold = .ok ()) : p.WellSized := by
  obtain ⟨q, c, ae, be, ai, bi, rfl⟩ := hp
  obtain ⟨hdefects, ⟨hq, hc⟩, -⟩ := check_eq_ok h
  obtain ⟨he, hi⟩ := List.append_eq_nil_iff.1 hdefects
  obtain ⟨hae, hbe, hbe'⟩ := pair_sizes he
  obtain ⟨hai, hbi, hbi'⟩ := pair_sizes hi
  exact ⟨congrArg Prod.fst hq, congrArg Prod.snd hq, congrArg Prod.snd hc, hae, hbe, hbe', hai, hbi,
    hbi'⟩

/-- An accepted program has no more equality constraints than variables. -/
theorem WellSized.me_le_n {p : QuadraticProgram α} (hp : p.WellSized) {threshold : α}
    (h : p.check threshold = .ok ()) : p.me ≤ p.n := by
  obtain ⟨-, -, hme | hrank⟩ := check_eq_ok h
  · omega
  · have hle := p.ae.rank_le threshold
    rw [hrank, hp.ae_cols] at hle
    exact hle.trans (min_le_right _ _)

/-! ## The test of a point -/

theorem allRows_eq_ok {bounds : Mat α} {values : Vec α} {holds : α → α → Bool} {rows : List ℕ}
    {all : Bool} (h : allRows? bounds values holds rows = .ok all) :
    all = true ↔ ∀ r ∈ rows, holds (bounds.get r 0) (values.entry r) = true := by
  induction rows with
  | nil =>
    obtain rfl := Except.ok.inj h
    exact iff_of_true rfl fun r hr => nomatch hr
  | cons r rest ih =>
    obtain ⟨b, hb, h⟩ := Checked.bind_eq_ok_iff.1 h
    obtain ⟨-, rfl⟩ := guarded_eq_ok_iff.1 hb
    rw [List.forall_mem_cons]
    split at h
    · next hr => rw [ih h, and_iff_right hr]
    · next hr =>
      obtain rfl := Except.ok.inj h
      constructor
      · intro hall
        cases hall
      · rintro ⟨hr', -⟩
        exact absurd hr' hr

/-- The test looks at each row for itself. -/
theorem isFeasible?_eq_ok {p : QuadraticProgram α} {x : Vec α} {same : α → α → Bool}
    {accepted : Bool} (h : p.isFeasible? x same = .ok accepted) :
    accepted = true ↔
      (∀ r < p.me, same (p.be.get r 0) ((p.ae.mulVec x).entry r) = true) ∧
        ∀ i < p.mi, (p.ai.mulVec x).entry i ≤ p.bound i ∨
          same (p.bound i) ((p.ai.mulVec x).entry i) = true := by
  obtain ⟨equalities, hequalities, h⟩ := Checked.bind_eq_ok_iff.1 h
  obtain ⟨tight, htight, h⟩ := Checked.bind_eq_ok_iff.1 h
  obtain ⟨inequalities, hinequalities, h⟩ := Checked.bind_eq_ok_iff.1 h
  obtain ⟨below, hbelow, h⟩ := Checked.bind_eq_ok_iff.1 h
  obtain rfl := Except.ok.inj h
  obtain ⟨-, rfl⟩ := guarded_eq_ok_iff.1 hequalities
  obtain ⟨-, rfl⟩ := guarded_eq_ok_iff.1 hinequalities
  rw [Bool.and_eq_true, allRows_eq_ok htight, allRows_eq_ok hbelow]
  simp only [List.mem_range, Bool.or_eq_true, decide_eq_true_eq, bound]

end Check

variable {K : Type} [Field K] [LinearOrder K] [Exact K]

theorem rowsIndependent_of_check [IsStrictOrderedRing K] {p : QuadraticProgram K} {threshold : K}
    (hthreshold : 0 ≤ threshold) (h : p.check threshold = .ok ()) :
    Rank.RowsIndependent p.me p.ae.cols p.ae 0 0 := by
  obtain ⟨-, -, hme | hrank⟩ := check_eq_ok h
  · rw [hme]
    exact fun l _ i _ hin => absurd hin (Nat.not_lt_zero i)
  · exact Rank.rowsIndependent_of_rank hthreshold hrank

/-! ## Points -/

/-- The point satisfies the constraints of the program. -/
structure IsFeasible (p : QuadraticProgram K) (x : ℕ → K) : Prop where
  equality : ∀ r < p.me, p.ae.lhs r x = p.be.get r 0
  inequality : ∀ i < p.mi, p.ai.lhs i x ≤ p.bound i

/-- The objective at a point. -/
def objectiveAt (p : QuadraticProgram K) (x : ℕ → K) : K :=
  1 / 2 * p.q.bilin x x - ∑ j ∈ range p.n, p.c.get j 0 * x j

/-- The derivative of the objective at `x` in the direction `d`. -/
def slope (p : QuadraticProgram K) (x d : ℕ → K) : K :=
  ∑ j ∈ range p.n, (p.q.lhs j x - p.c.get j 0) * d j

/-- The point is feasible and no feasible point has a smaller objective. -/
structure IsMinimum (p : QuadraticProgram K) (x : ℕ → K) : Prop where
  feasible : p.IsFeasible x
  le : ∀ y, p.IsFeasible y → p.objectiveAt x ≤ p.objectiveAt y

/-- The multipliers, those of the equality constraints first, balance the gradient. -/
def Balances (p : QuadraticProgram K) (l x : ℕ → K) : Prop :=
  ∀ j < p.n, p.q.lhs j x - p.c.get j 0 + ∑ r ∈ range p.me, p.ae.get r j * l r +
    ∑ i ∈ range p.mi, p.ai.get i j * l (p.me + i) = 0

/-- A direction other than zero along which neither the quadratic term nor the equality constraints
change. -/
def HasFlatDirection (p : QuadraticProgram K) : Prop :=
  ∃ d : ℕ → K, (∃ j < p.n, d j ≠ 0) ∧ (∀ j < p.n, p.q.lhs j d = 0) ∧
    ∀ r < p.me, p.ae.lhs r d = 0

section Objective

variable {p : QuadraticProgram K} (hp : p.WellSized)

include hp

theorem IsFeasible.congr {x y : ℕ → K} (hx : p.IsFeasible x) (h : ∀ j < p.n, x j = y j) :
    p.IsFeasible y := by
  refine ⟨fun r hr => ?_, fun i hi => ?_⟩
  · rw [← hx.equality r hr]
    exact Mat.lhs_congr fun j hj => (h j (by rwa [← hp.ae_cols])).symm
  · refine le_of_eq_of_le ?_ (hx.inequality i hi)
    exact Mat.lhs_congr fun j hj => (h j (by rwa [← hp.ai_cols])).symm

theorem objectiveAt_congr {x y : ℕ → K} (h : ∀ j < p.n, x j = y j) :
    p.objectiveAt x = p.objectiveAt y := by
  have hrows : ∀ j < p.n, p.q.lhs j x = p.q.lhs j y := fun j _ =>
    Mat.lhs_congr fun k hk => h k (by rwa [← hp.q_cols])
  have hform : p.q.bilin x x = p.q.bilin y y := by
    rw [Mat.bilin, Mat.bilin, hp.q_rows]
    refine sum_congr rfl fun j hj => ?_
    rw [h j (mem_range.1 hj), hrows j (mem_range.1 hj)]
  have hlinear : ∑ j ∈ range p.n, p.c.get j 0 * x j = ∑ j ∈ range p.n, p.c.get j 0 * y j :=
    sum_congr rfl fun j hj => by rw [h j (mem_range.1 hj)]
  rw [objectiveAt, objectiveAt, hform, hlinear]

theorem objective_eq_objectiveAt {x : Vec K} (hx : x.size = p.n) :
    p.objective x = p.objectiveAt x.entry := by
  have hc : p.c.data.size = p.n := Mat.size_data_of_cols hp.c_cols
  have hform : x.dot (p.q.mulVec x) = p.q.bilin x.entry x.entry := by
    rw [Vec.dot_eq_sum, Mat.bilin, hx, hp.q_rows]
    refine sum_congr rfl fun j hj => ?_
    rw [Mat.entry_mulVec_eq_lhs (by rw [hp.q_rows]; exact mem_range.1 hj)]
  have hlinear : Vec.dot p.c.data x = ∑ j ∈ range p.n, p.c.get j 0 * x.entry j := by
    rw [Vec.dot_eq_sum, hc]
    refine sum_congr rfl fun j hj => ?_
    rw [Mat.entry_data hp.c_cols (mem_range.1 hj)]
  rw [objective, objectiveAt, hform, hlinear, one_add_one_eq_two]

theorem objectiveAt_line [IsStrictOrderedRing K] (hsymm : p.q.IsSymm) (x d : ℕ → K) (s : K) :
    p.objectiveAt (fun j => x j + s * d j) =
      p.objectiveAt x + s * p.slope x d + 1 / 2 * (s * s) * p.q.bilin d d := by
  have hsquare : p.q.rows = p.q.cols := by rw [hp.q_rows, hp.q_cols]
  have hlinear : ∑ j ∈ range p.n, p.c.get j 0 * (x j + s * d j) =
      ∑ j ∈ range p.n, p.c.get j 0 * x j + s * ∑ j ∈ range p.n, p.c.get j 0 * d j := by
    rw [mul_sum, ← sum_add_distrib]
    exact sum_congr rfl fun j _ => by ring
  have hslope : p.slope x d = p.q.bilin d x - ∑ j ∈ range p.n, p.c.get j 0 * d j := by
    rw [slope, Mat.bilin, hp.q_rows, ← sum_sub_distrib]
    exact sum_congr rfl fun j _ => by ring
  rw [objectiveAt, Mat.bilin_line hsymm hsquare, hlinear, hslope, objectiveAt]
  ring

/-- Where multipliers balance the gradient, the derivative is what the constraints resist with. -/
theorem slope_eq_of_balances {l x : ℕ → K} (h : p.Balances l x) (d : ℕ → K) :
    p.slope x d = -(∑ r ∈ range p.me, l r * p.ae.lhs r d +
      ∑ i ∈ range p.mi, l (p.me + i) * p.ai.lhs i d) := by
  have hrow : ∀ j ∈ range p.n, (p.q.lhs j x - p.c.get j 0) * d j =
      -(∑ r ∈ range p.me, l r * (p.ae.get r j * d j) +
        ∑ i ∈ range p.mi, l (p.me + i) * (p.ai.get i j * d j)) := by
    intro j hj
    have hgrad : p.q.lhs j x - p.c.get j 0 = -(∑ r ∈ range p.me, p.ae.get r j * l r +
        ∑ i ∈ range p.mi, p.ai.get i j * l (p.me + i)) := by
      linear_combination h j (mem_range.1 hj)
    rw [hgrad, neg_mul, add_mul, sum_mul, sum_mul]
    congr 2
    · exact sum_congr rfl fun r _ => by ring
    · exact sum_congr rfl fun i _ => by ring
  rw [slope, sum_congr rfl hrow, sum_neg_distrib, sum_add_distrib, sum_comm]
  congr 2
  · refine sum_congr rfl fun r _ => ?_
    rw [Mat.lhs, hp.ae_cols, mul_sum]
  · rw [sum_comm]
    refine sum_congr rfl fun i _ => ?_
    rw [Mat.lhs, hp.ai_cols, mul_sum]

/-- On the way to a point at which the derivative along the way is zero, the objective falls by a
part of the quadratic form of the way. -/
theorem objectiveAt_towards [IsStrictOrderedRing K] (hsymm : p.q.IsSymm) {x y : ℕ → K}
    (hslope : p.slope y (fun j => y j - x j) = 0) (s : K) :
    p.objectiveAt (fun j => x j + s * (y j - x j)) = p.objectiveAt x -
      s * (1 - 1 / 2 * s) * p.q.bilin (fun j => y j - x j) (fun j => y j - x j) := by
  have hstart := p.objectiveAt_line hp hsymm y (fun j => y j - x j) (-1)
  have hend := p.objectiveAt_line hp hsymm y (fun j => y j - x j) (s - 1)
  have hx : (fun j => y j + -1 * (y j - x j)) = x := by
    funext j
    ring
  have hway : (fun j => y j + (s - 1) * (y j - x j)) = fun j => x j + s * (y j - x j) := by
    funext j
    ring
  rw [hx, hslope] at hstart
  rw [hway, hslope] at hend
  linear_combination hend - hstart

variable [IsStrictOrderedRing K]

/-- Between a feasible point with balancing multipliers of the right sign and another feasible
point, the objective rises at least by half the quadratic form of their difference. -/
theorem objectiveAt_add_le (hsymm : p.q.IsSymm) {l x : ℕ → K} (hbalance : p.Balances l x)
    (hx : p.IsFeasible x)
    (hcompl : ∀ i < p.mi, l (p.me + i) = 0 ∨ p.ai.lhs i x = p.bound i)
    (hsign : ∀ i < p.mi, 0 ≤ l (p.me + i)) {y : ℕ → K} (hy : p.IsFeasible y) :
    p.objectiveAt x + 1 / 2 * p.q.bilin (fun j => y j - x j) (fun j => y j - x j) ≤
      p.objectiveAt y := by
  have hline := p.objectiveAt_line hp hsymm x (fun j => y j - x j) 1
  have hend : (fun j => x j + 1 * (y j - x j)) = y := by
    funext j
    ring
  have hslope : 0 ≤ p.slope x fun j => y j - x j := by
    rw [p.slope_eq_of_balances hp hbalance, neg_nonneg]
    have hequal : ∑ r ∈ range p.me, l r * p.ae.lhs r (fun j => y j - x j) = 0 := by
      refine sum_eq_zero fun r hr => ?_
      have hr := mem_range.1 hr
      rw [Mat.lhs_sub, hy.equality r hr, hx.equality r hr, sub_self, mul_zero]
    rw [hequal, zero_add]
    refine sum_nonpos fun i hi => ?_
    have hi := mem_range.1 hi
    rcases hcompl i hi with hzero | htight
    · rw [hzero, zero_mul]
    · rw [Mat.lhs_sub, htight]
      exact mul_nonpos_of_nonneg_of_nonpos (hsign i hi) (sub_nonpos.2 (hy.inequality i hi))
  rw [hend] at hline
  linarith

end Objective

/-! ## Samples

Small programs on which the course of a run can be followed. -/

/-- Minimise `2 x² - 4 x` subject to `x ≤ 3`. -/
noncomputable def sample : QuadraticProgram ℝ :=
  letI := Exact.real 1000
  ofData ⟨.general 1 1, #[4], rfl⟩ ⟨.general 1 1, #[4], rfl⟩ none none
    (some ⟨.general 1 1, #[1], rfl⟩) (some ⟨.general 1 1, #[3], rfl⟩)

/-- Parameters without tolerances for runs of at most ten iterations. -/
noncomputable def sampleParams : Params ℝ := ⟨10, 10, 0, 0, ⟨0, 0⟩, ⟨0, 0⟩, ⟨0, 0⟩, ⟨0, 0⟩⟩

/-- The origin, offered as a point to start from. -/
noncomputable def sampleOffer : Solution ℝ := ⟨.approximate, #[0], none, 0, 0⟩

/-- The state in which the run on the sample starts. -/
noncomputable def sampleState : ActiveSet.State ℝ where
  status := .feasible
  x := #[0]
  multipliers := #[0]
  working := .empty 1
  cholesky := letI := Exact.real 1000; ⟨0, some (.ofFn (.general 1 1) fun _ _ => 2)⟩
  lu := ⟨0, none⟩
  minimizer := some #[1]
  blocking := none
  iterations := 0

/-- Minimise `½ x² - x` over the plane. -/
noncomputable def flatSample : QuadraticProgram ℝ :=
  letI := Exact.real 1000
  ofData ⟨.general 2 2, #[1, 0, 0, 0], rfl⟩ ⟨.general 2 1, #[1, 0], rfl⟩ none none none none

/-- Minimise `2 x² - 4 x` subject to `2 x ≤ 1`. -/
noncomputable def limitedSample : QuadraticProgram ℝ :=
  letI := Exact.real 1000
  ofData ⟨.general 1 1, #[4], rfl⟩ ⟨.general 1 1, #[4], rfl⟩ none none
    (some ⟨.general 1 1, #[2], rfl⟩) (some ⟨.general 1 1, #[1], rfl⟩)

/-- Minimise `½ (x² + y²) - 2 x` subject to `x + y ≤ 1`. -/
noncomputable def planeSample : QuadraticProgram ℝ :=
  letI := Exact.real 1000
  ofData ⟨.general 2 2, #[1, 0, 0, 1], rfl⟩ ⟨.general 2 1, #[2, 0], rfl⟩ none none
    (some ⟨.general 1 2, #[1, 1], rfl⟩) (some ⟨.general 1 1, #[1], rfl⟩)

/-- The state that knows of the sample no more than the factor of its quadratic term. -/
noncomputable def planeState : ActiveSet.State ℝ :=
  letI := Exact.real 1000
  { ActiveSet.State.init planeSample 0 with cholesky := (Cholesky.init 0).compute planeSample.q }

/-- Minimise `x² / 2 - 4 · 10 ^ 11 x` subject to `x / 10 ^ 11 ≤ 1`. -/
noncomputable def gentleSample : QuadraticProgram ℝ :=
  letI := Exact.real 1000
  ofData ⟨.general 1 1, #[1], rfl⟩ ⟨.general 1 1, #[400000000000], rfl⟩ none none
    (some ⟨.general 1 1, #[1 / 100000000000], rfl⟩) (some ⟨.general 1 1, #[1], rfl⟩)

/-- The standard parameters for runs of one iteration. -/
noncomputable def briefParams : Params ℝ :=
  letI := Exact.real 1000
  { Params.standard with maxIter := 1 }

/-- Minimise `x² / 2 - x` subject to `x ≤ upper` and `-x ≤ -2`. -/
def intervalSample (upper : ℚ) : QuadraticProgram ℚ :=
  letI := Exact.rational 1000
  ofData ⟨.general 1 1, #[1], rfl⟩ ⟨.general 1 1, #[1], rfl⟩ none none
    (some ⟨.general 2 1, #[1, -1], rfl⟩) (some ⟨.general 2 1, #[upper, -2], rfl⟩)

/-- Parameters without tolerances for runs of at most ten pivots. -/
def intervalParams : Params ℚ := ⟨10, 10, 0, 0, ⟨0, 0⟩, ⟨0, 0⟩, ⟨0, 0⟩, ⟨0, 0⟩⟩

/-- The upper end of an interval that ends at three, offered as a point to start from. -/
def intervalOffer : Solution ℚ := ⟨.approximate, #[3], none, 0, 0⟩

/-- Minimise `x² / 2` subject to `x = 10 ^ 11`. -/
def farSample : QuadraticProgram ℚ :=
  letI := Exact.double
  ofData ⟨.general 1 1, #[1], rfl⟩ ⟨.general 1 1, #[0], rfl⟩ (some ⟨.general 1 1, #[1], rfl⟩)
    (some ⟨.general 1 1, #[10 ^ 11], rfl⟩) none none

end QuadraticProgram

end QuadProg
