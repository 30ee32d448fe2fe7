import QuadProg.Proofs.ActiveSet.Ready
import QuadProg.Proofs.ActiveSet.Start

/-!
# Runs on a half-line

A program with one variable and one inequality is small enough for its runs to be written down.
From a point inside of the half-line the first iteration heads for the free minimiser and goes as
far as the end of the half-line allows. If the end limits the step, the inequality joins the working
set, and a second iteration finds its multiplier. Without tolerances the run ends at the minimum, by
whichever of the two ways (`solve_halfLine`). With tolerances the end may be left out of the ratio
test, and the run leaves the half-line (`solve_overstepping`).
-/

namespace QuadProg

open Finset

/-! ## Vectors and matrices with one entry -/

theorem Vec.entry_singleton {α : Type} [Scalar α] (v : α) : Vec.entry #[v] 0 = v := rfl

/-- The matrix with one entry. -/
def Mat.single {α : Type} (v : α) : Mat α := ⟨.general 1 1, #[v], rfl⟩

theorem Mat.ofFn_single {α : Type} (f : ℕ → ℕ → α) : ofFn (.general 1 1) f = single (f 0 0) := rfl

section Single

variable {K : Type} [Field K] [LinearOrder K] [Exact K]

theorem Vec.norm_singleton [IsStrictOrderedRing K] [ExactRoots K] (x : K) :
    Vec.norm #[x] = |x| := by
  have hdot : Vec.dot #[x] #[x] = x * x := by
    rw [Vec.dot_eq_sum]
    exact sum_range_one _
  have hsquare := ExactRoots.sqrt_mul_self (x * x) (mul_self_nonneg x)
  rw [Vec.norm, hdot, ← abs_of_nonneg (ExactRoots.sqrt_nonneg (x * x) (mul_self_nonneg x))]
  exact abs_eq_abs.2 (mul_self_eq_mul_self_iff.1 hsquare)

theorem Mat.lhs_single (v : K) (x : ℕ → K) : (single v).lhs 0 x = v * x 0 := sum_range_one _

theorem Mat.select?_single (v : K) : (single v).select? [0] = .ok (single v) :=
  guarded_eq_ok_iff.2 ⟨Or.inr fun _ hi => (List.mem_singleton.1 hi).trans_lt Nat.one_pos,
    Mat.ofFn_single fun r c => (single v).get ([0].getD r 0) c⟩

theorem Mat.mulVec?_single (v x : K) : (single v).mulVec? #[x] = .ok #[v * x] := by
  refine guarded_eq_ok_iff.2 ⟨rfl, Vec.ext_entry rfl fun i hi => ?_⟩
  obtain rfl := Nat.lt_one_iff.1 hi
  rw [Mat.entry_mulVec_eq_lhs Nat.one_pos, Mat.lhs_single]
  rfl

namespace Cholesky

theorem compute?_single {threshold q : K} (h : threshold * max 1 |q| < q) :
    (init threshold).compute? (.single q) = .ok ⟨threshold, some (.single (Scalar.sqrt q))⟩ := by
  have hscale : diagonalScale (Mat.single q).toGeneral = max 1 |q| := Scalar.max_eq_max _ _
  have hpivot : remainder (Mat.single q).toGeneral 0 0 = q := rfl
  have hfactor : decompose (Mat.single q).toGeneral threshold =
      ⟨true, .single (Scalar.sqrt q)⟩ := by
    rw [decompose, hscale, show List.range (Mat.single q).toGeneral.rows = [0] from rfl, columns,
      hpivot, if_pos h]
    rfl
  refine guarded_eq_ok_iff.2 ⟨rfl, ?_⟩
  rw [compute, show (init threshold).threshold = threshold from rfl, hfactor]
  rfl

theorem isSolvable_single {threshold q : K} (h : threshold * max 1 |q| < q) :
    ((init threshold).compute (.single q)).isSolvable = true := by
  rw [(guarded_eq_ok_iff.1 (compute?_single h)).2]
  rfl

theorem solveVec?_single (threshold r c : K) :
    solveVec? ⟨threshold, some (.single r)⟩ #[c] = .ok #[c / r / r] :=
  Checked.bind_eq_ok_iff.2 ⟨_, rfl, guarded_eq_ok rfl⟩

end Cholesky

end Single

/-! ## The program -/

namespace QuadraticProgram

variable {K : Type} [Field K] [LinearOrder K] [Exact K] {q c a b : K}

/-- Minimise `½ q x² - c x` subject to `a x ≤ b`. -/
def halfLine (q c a b : K) : QuadraticProgram K :=
  ofData (.single q) (.single c) none none (some (.single a)) (some (.single b))

theorem wellSized_halfLine : (halfLine q c a b).WellSized :=
  ⟨rfl, rfl, rfl, rfl, rfl, rfl, rfl, rfl, rfl⟩

theorem isBuilt_halfLine : (halfLine q c a b).IsBuilt := ⟨_, _, _, _, _, _, rfl⟩

theorem check_halfLine (threshold : K) : (halfLine q c a b).check threshold = .ok () := rfl

theorem isSymm_halfLine : (halfLine q c a b).q.IsSymm := Mat.isSymm_of_one rfl rfl

theorem isPosDef_halfLine [IsStrictOrderedRing K] (hq : 0 < q) :
    (halfLine q c a b).q.IsPosDef := by
  rintro x ⟨i, hi, hne⟩
  obtain rfl := Nat.lt_one_iff.1 hi
  have hform : (halfLine q c a b).q.bilin x x = x 0 * (q * x 0) := by
    rw [← Mat.lhs_single q x]
    exact sum_range_one _
  rw [hform, mul_left_comm]
  exact mul_pos hq (mul_self_pos.2 hne)

theorem fits_halfLine : (halfLine q c a b).Fits :=
  ⟨show 0 * 1 < arrayBound by decide, show 0 + 1 < wordBound by decide,
    show 0 * 1 < arrayBound by decide⟩

theorem bodies?_halfLine (x : K) : (halfLine q c a b).bodies? [0] #[x] = .ok #[a * x] :=
  Checked.bind_eq_ok_iff.2 ⟨_, Mat.select?_single a, Mat.mulVec?_single a x⟩

theorem hasBounds_halfLine : (halfLine q c a b).HasBounds [0] := by
  intro i hi
  obtain rfl := List.mem_singleton.1 hi
  exact ⟨Nat.one_pos, Nat.one_pos⟩

theorem slacks?_halfLine (x : K) : (halfLine q c a b).slacks? [0] #[x] = .ok #[b - a * x] :=
  Checked.bind_eq_ok_iff.2 ⟨_, bodies?_halfLine x, guarded_eq_ok hasBounds_halfLine⟩

/-- What balances the gradient if the inequality is active. -/
theorem balance_halfLine (x l : ℕ → K) :
    (halfLine q c a b).q.lhs 0 x + (∑ r ∈ range (halfLine q c a b).me,
      (halfLine q c a b).ae.get r 0 * l r + ∑ k ∈ range [0].length,
        (halfLine q c a b).ai.get ([0].getD k 0) 0 * l ((halfLine q c a b).me + k)) =
      q * x 0 + a * l 0 := by
  have hq : (halfLine q c a b).q.lhs 0 x = q * x 0 := Mat.lhs_single q x
  have hnone : ∑ r ∈ range (halfLine q c a b).me, (halfLine q c a b).ae.get r 0 * l r = 0 :=
    sum_range_zero _
  have hone : ∑ k ∈ range [0].length, (halfLine q c a b).ai.get ([0].getD k 0) 0 *
      l ((halfLine q c a b).me + k) = a * l 0 := sum_range_one _
  rw [hq, hnone, hone, zero_add]

end QuadraticProgram

namespace ActiveSet

open QuadraticProgram

variable {K : Type} [Field K] [LinearOrder K] [Exact K]
variable {par : Params K} {q c a b x m d l : K} {s : State K}

/-! ## The start -/

theorem isFeasible?_halfLine (par : Params K) (x : K) :
    isFeasible? par (halfLine q c a b) #[x] =
      .ok (decide (a * x ≤ b) || !par.slack.differ b (a * x)) := by
  refine Checked.bind_eq_ok_iff.2 ⟨#[], rfl, Checked.bind_eq_ok_iff.2 ⟨true, rfl,
    Checked.bind_eq_ok_iff.2 ⟨_, Mat.mulVec?_single a x, Checked.bind_eq_ok_iff.2
      ⟨decide (a * x ≤ b) || !par.slack.differ b (a * x), ?_, rfl⟩⟩⟩⟩
  refine Checked.bind_eq_ok_iff.2
    ⟨b, guarded_eq_ok ⟨Nat.one_pos, Nat.one_pos⟩, ?_⟩
  rw [Vec.entry_singleton]
  cases h : decide (a * x ≤ b) || !par.slack.differ b (a * x) with
  | true => exact if_pos h
  | false => exact if_neg (ne_true_of_eq_false h)

/-- The state in which a run starts from a point inside of the half-line. -/
def halfLineState (par : Params K) (q c x : K) : State K where
  status := .feasible
  x := #[x]
  multipliers := #[0]
  working := .empty 1
  cholesky := ⟨par.zeroThreshold, some (.single (Scalar.sqrt q))⟩
  lu := .init par.zeroThreshold
  minimizer := some #[c / Scalar.sqrt q / Scalar.sqrt q]
  blocking := none
  iterations := 0

/-- An inequality that is not tight stays outside of the working set. -/
theorem prepare_halfLine (hloose : par.slack.differ b (a * x) = true) :
    prepare? par (halfLine q c a b) { halfLineState par q c x with minimizer := none } =
      .ok (halfLineState par q c x) := by
  have hkept : joinTight par (halfLine q c a b) (.empty 1) (0, a * x) = .empty 1 := if_pos hloose
  have hjoin : joinTight? par (halfLine q c a b)
      { halfLineState par q c x with minimizer := none } =
        .ok { halfLineState par q c x with minimizer := none } :=
    Checked.bind_eq_ok_iff.2 ⟨_, bodies?_halfLine x, guarded_eq_ok_iff.2 ⟨hasBounds_halfLine,
      congrArg (fun w => { halfLineState par q c x with minimizer := none, working := w }) hkept⟩⟩
  refine Checked.bind_eq_ok_iff.2 ⟨_, hjoin, Checked.bind_eq_ok_iff.2 ⟨_, rfl,
    Checked.bind_eq_ok_iff.2 ⟨_, guarded_eq_ok fun i hi => ?_,
      Checked.bind_eq_ok_iff.2 ⟨_, Cholesky.solveVec?_single _ _ _, rfl⟩⟩⟩⟩
  obtain rfl := List.mem_singleton.1 hi
  exact Nat.one_pos

theorem initialise_halfLine (hq : par.zeroThreshold * max 1 |q| < q)
    (haccepted : isFeasible? par (halfLine q c a b) #[x] = .ok true)
    (hloose : par.slack.differ b (a * x) = true) {offer : Solution K}
    (hoffer : offer.status.isApproximate = true) (hx : offer.x = #[x]) :
    initialise? par (halfLine q c a b) (some offer) (start par (halfLine q c a b)).state =
      .ok ⟨halfLineState par q c x,
        Trace.transition .valid .feasible ++ [.note (.initialSet (.empty 1))]⟩ := by
  have husable : usableOffer (halfLine q c a b) (some offer) = some #[x] := by
    simp only [usableOffer, hoffer, hx]
    rfl
  have hsearch : search? par (halfLine q c a b)
      { halfLineState par q c 0 with status := .valid, minimizer := none }
      (usableOffer (halfLine q c a b) (some offer)) =
        .ok ⟨.feasible,
          { halfLineState par q c x with status := .valid, minimizer := none }, []⟩ := by
    rw [husable]
    exact Checked.bind_eq_ok_iff.2 ⟨#[x], guarded_eq_ok rfl,
      Checked.bind_eq_ok_iff.2 ⟨true, haccepted, rfl⟩⟩
  exact Checked.bind_eq_ok_iff.2 ⟨_, Cholesky.compute?_single hq,
    Checked.bind_eq_ok_iff.2 ⟨_, hsearch,
      Checked.bind_eq_ok_iff.2 ⟨_, prepare_halfLine hloose, rfl⟩⟩⟩

/-! ## Iterations -/

/-- The limit that the end of the half-line sets to the move `d` from `x`. -/
theorem stride?_halfLine {length : K} :
    stride? par (halfLine q c a b) #[x] #[d] length [0] =
      .ok (if limitsStep par length (b - a * x) (a * d) = true ∧
          stepRatio par (b - a * x) (a * d) < 1 then
        ⟨stepRatio par (b - a * x) (a * d), some 0⟩ else .whole) := by
  refine Checked.bind_eq_ok_iff.2 ⟨_, slacks?_halfLine x,
    Checked.bind_eq_ok_iff.2 ⟨_, bodies?_halfLine d, congrArg Except.ok ?_⟩⟩
  rw [show List.range [0].length = [0] from rfl, Selection.least_singleton, Vec.entry_singleton,
    Vec.entry_singleton]
  simp only [Bool.and_eq_true, decide_eq_true_eq]
  split <;> rfl

/-- The first iteration heads for the free minimiser `m`. -/
theorem iterate_halfLineState [IsStrictOrderedRing K] [ExactRoots K]
    (hm : m = c / Scalar.sqrt q / Scalar.sqrt q)
    (hfar : par.solution.isSmall |x| |m - x| = false) {stride : Stride K}
    (hstride : stride? par (halfLine q c a b) #[x] #[m - x] |m - x| [0] = .ok stride)
    (hpos : 0 < stride.length) :
    iterate? par (halfLine q c a b) (halfLineState par q c x) =
      .ok ⟨{ halfLineState par q c x with
        status := .approximate
        x := #[x + stride.length * (m - x)]
        blocking := stride.blocking }, .note (.step 0 stride.length stride.blocking) ::
          Trace.transition .feasible .approximate⟩ := by
  -- No row is active, so the factor of the quadratic term alone gives the target.
  have hsolved : subproblem? (halfLine q c a b)
      { halfLineState par q c x with blocking := none } [] =
        .ok ⟨some ⟨#[m], #[]⟩, .init par.zeroThreshold⟩ := by
    rw [hm]
    refine Checked.bind_eq_ok_iff.2 ⟨_, rfl, Checked.bind_eq_ok_iff.2 ⟨_, rfl, ?_⟩⟩
    exact Checked.bind_eq_ok_iff.2 ⟨_, Cholesky.solveVec?_single _ _ _, rfl⟩
  have hmove : move? par (halfLine q c a b) (halfLineState par q c x) #[m] =
      .ok ⟨{ halfLineState par q c x with
        status := .approximate
        x := #[x + stride.length * (m - x)]
        blocking := stride.blocking }, .note (.step 0 stride.length stride.blocking) ::
          Trace.transition .feasible .approximate⟩ := by
    have hdx : Vec.addScaled? (-1) #[x] #[m] = .ok #[m - x] := by
      show Except.ok #[m + -1 * x] = _
      rw [neg_one_mul, sub_eq_add_neg]
    have hlength : Vec.norm (halfLineState par q c x).x = |x| := Vec.norm_singleton x
    refine Checked.bind_eq_ok_iff.2 ⟨_, hdx, ?_⟩
    rw [hlength, Vec.norm_singleton, if_neg (ne_true_of_eq_false hfar)]
    refine Checked.bind_eq_ok_iff.2 ⟨_, hstride, ?_⟩
    rw [if_pos hpos]
    exact Checked.bind_eq_ok_iff.2 ⟨_, rfl, rfl⟩
  refine (iterate_of_target hsolved rfl).trans (Checked.bind_eq_ok_iff.2 ⟨_, hmove, ?_⟩)
  exact Checked.bind_eq_ok_iff.2
    ⟨_, guarded_eq_ok ⟨Nat.zero_le _, fun i hi => nomatch hi⟩, rfl⟩

section End

variable [IsStrictOrderedRing K] [ExactRoots K]

/-- With the inequality active, the subproblem has the end of the half-line for its solution. -/
theorem subproblem_end (hpar : par.IsExact) (ha : a ≠ 0) (hready : Ready (halfLine q c a b) s)
    (hs : Computed par (halfLine q c a b) s) :
    ∃ lu, subproblem? (halfLine q c a b) s [0] =
      .ok ⟨some ⟨#[b / a], #[(c - q * (b / a)) / a]⟩, lu⟩ := by
  have hp : (halfLine q c a b).WellSized := wellSized_halfLine
  have hthreshold := hpar.zeroThreshold
  have hactive : ∀ i ∈ [0], i < (halfLine q c a b).mi :=
    fun i hi => (List.mem_singleton.1 hi).trans_lt Nat.one_pos
  obtain ⟨⟨target, lu⟩, hsolved, hsize⟩ := hready.subproblem_total hp hactive
  -- The tight row fixes the point, and then the balance fixes the multiplier.
  have hregular : ¬ IsSingular (halfLine q c a b) [0] := by
    rintro ⟨x, l, hne, hbalance, -, htight⟩
    have htight : a * x 0 = 0 := (Mat.lhs_single a x).symm.trans (htight 0 Nat.one_pos)
    have hx : x 0 = 0 := (mul_eq_zero.1 htight).resolve_left ha
    have hbalance := (balance_halfLine x l).symm.trans (hbalance 0 Nat.one_pos)
    rw [hx, mul_zero, zero_add] at hbalance
    rcases hne with ⟨j, hj, hne⟩ | ⟨k, hk, hne⟩
    · obtain rfl := Nat.lt_one_iff.1 hj
      exact hne hx
    · obtain rfl := Nat.lt_one_iff.1 hk
      exact hne ((mul_eq_zero.1 hbalance).resolve_left ha)
  cases target with
  | none =>
    exact absurd (isSingular_of_subproblem hp (hs.threshold.trans hthreshold) hsolved rfl) hregular
  | some t =>
    obtain ⟨hx, hl⟩ := hsize t rfl
    have ht := solves_of_subproblem (hs.remembers hp isSymm_halfLine hthreshold.ge) hp
      isSymm_halfLine hsolved rfl
    have htight : a * t.x.entry 0 = b := (Mat.lhs_single a _).symm.trans (ht.tight 0 Nat.one_pos)
    have hbalance : q * t.x.entry 0 + a * t.multipliers.entry 0 = c :=
      (balance_halfLine _ _).symm.trans (ht.balance 0 Nat.one_pos)
    have hentry : t.x.entry 0 = b / a := eq_div_of_mul_eq ha ((mul_comm _ _).trans htight)
    have hpoint : t.x = #[b / a] := by
      refine Vec.ext_entry hx fun i hi => ?_
      obtain rfl := Nat.lt_one_iff.1 (hi.trans_eq hx)
      exact hentry
    have hmultiplier : t.multipliers = #[(c - q * (b / a)) / a] := by
      refine Vec.ext_entry hl fun i hi => ?_
      obtain rfl := Nat.lt_one_iff.1 (hi.trans_eq hl)
      rw [Vec.entry_singleton, ← hentry]
      refine eq_div_of_mul_eq ha ?_
      linear_combination hbalance
    obtain ⟨x, l⟩ := t
    cases hpoint
    cases hmultiplier
    exact ⟨lu, hsolved⟩

/-- At the end of the half-line an iteration stays and finds the multiplier. -/
theorem iterate_end (hpar : par.IsExact) (ha : a ≠ 0) (hready : Ready (halfLine q c a b) s)
    (hs : Computed par (halfLine q c a b) s) (hmembers : s.working.members = [0])
    (hx : s.x = #[b / a]) :
    ∃ lu trace, iterate? par (halfLine q c a b) s = .ok ⟨{ s with
      status := .feasible
      multipliers := #[(c - q * (b / a)) / a]
      lu
      blocking := none }, trace⟩ := by
  have hsize : s.multipliers.size = 1 := hready.size_multipliers
  obtain ⟨lu, hsolved⟩ := subproblem_end hpar ha hready.unblocked
    ⟨hs.cholesky, hs.threshold, hs.minimizer⟩
  rw [← hmembers] at hsolved
  have hmove : move? par (halfLine q c a b) { s with blocking := none, lu } #[b / a] =
      .ok ⟨{ s with status := .feasible, lu, blocking := none },
        Trace.transition s.status .feasible⟩ := by
    have hdx : Vec.addScaled? (-1) s.x #[b / a] = .ok #[0] := by
      rw [hx]
      show Except.ok #[b / a + -1 * (b / a)] = _
      rw [neg_one_mul, add_neg_cancel]
    refine Checked.bind_eq_ok_iff.2 ⟨_, hdx, ?_⟩
    rw [Vec.norm_singleton, abs_zero]
    exact if_pos ((Tolerance.isSmall_iff hpar.solution _ _).2 rfl)
  have hcovers : ∀ i ∈ [0], (halfLine q c a b).me + i < s.multipliers.size := fun i hi =>
    (congrArg ((halfLine q c a b).me + ·) (List.mem_singleton.1 hi)).trans_lt
      (Nat.one_pos.trans_eq hsize.symm)
  have hspread : spread (halfLine q c a b) [0] #[(c - q * (b / a)) / a] s.multipliers =
      #[(c - q * (b / a)) / a] := by
    refine Vec.ext_entry ((size_spread ..).trans hsize) fun i hi => ?_
    obtain rfl := Nat.lt_one_iff.1 (hi.trans_eq ((size_spread ..).trans hsize))
    exact entry_spread_member (List.nodup_singleton 0) hcovers Nat.one_pos
  refine ⟨lu, Trace.transition s.status .feasible, (iterate_of_target hsolved rfl).trans ?_⟩
  rw [hmembers]
  refine Checked.bind_eq_ok_iff.2 ⟨_, hmove, Checked.bind_eq_ok_iff.2 ⟨_,
    guarded_eq_ok ⟨Nat.zero_le _, hcovers⟩, ?_⟩⟩
  show Except.ok _ = _
  rw [hspread]

end End

/-! ## Exchanges -/

/-- The end of the half-line is violated most if it is violated at all. -/
theorem mostViolated?_halfLine (hworking : s.working = .empty 1) (hx : s.x = #[x]) :
    mostViolated? par (halfLine q c a b) s =
      .ok (if outOfTolerance par b (b - a * x) = true ∧ b - a * x < 0 then some 0 else none) := by
  have hslacks : (halfLine q c a b).slacks? s.working.others s.x = .ok #[b - a * x] := by
    rw [hworking, hx]
    exact slacks?_halfLine x
  refine Checked.bind_eq_ok_iff.2 ⟨_, hslacks, congrArg Except.ok ?_⟩
  rw [hworking, show List.range (WorkingSet.empty 1).others.length = [0] from rfl,
    Selection.least_singleton, Vec.entry_singleton,
    show (halfLine q c a b).bound ((WorkingSet.empty 1).others.getD 0 0) = b from rfl]
  simp only [Bool.and_eq_true, decide_eq_true_eq]
  split <;> rfl

section Order

variable [IsStrictOrderedRing K]

/-- At a point of the half-line that no inequality limits, the run is over. -/
theorem exchange_inside (hworking : s.working = .empty 1) (hblocking : s.blocking = none)
    (hx : s.x = #[x]) (hle : a * x ≤ b) :
    exchange? par (halfLine q c a b) s =
      .ok (finish s [.note (.exchange s.iterations none none)]) := by
  refine exchange_of_settled one_ne_zero ?_ (guarded_eq_ok_iff.2 ⟨?_, ?_⟩)
  · rw [joining?, hblocking]
    refine (mostViolated?_halfLine hworking hx).trans ?_
    rw [if_neg fun h => absurd h.2 (not_lt.2 (sub_nonneg.2 hle))]
  · rw [State.CoversWorking, hworking]
    exact fun i hi => nomatch hi
  · rw [leaving, hworking]
    rfl

/-- The inequality joins if it limited the step or is violated. -/
theorem exchange_joins (hworking : s.working = .empty 1)
    (hjoins : s.blocking = some 0 ∨ s.blocking = none ∧ s.x = #[x] ∧ b < a * x ∧
      par.slack.differ b (a * x) = true) :
    exchange? par (halfLine q c a b) s =
      .ok (proceed { s with working := (WorkingSet.empty 1).insert 0 }
        [.note (.exchange s.iterations (some 0) none)]) := by
  have hjoin : joining? par (halfLine q c a b) s = .ok (some 0) := by
    rcases hjoins with hblocking | ⟨hblocking, hx, hlt, hdiffer⟩
    · rw [joining?, hblocking, hworking]
      rfl
    · rw [joining?, hblocking]
      refine (mostViolated?_halfLine hworking hx).trans ?_
      rw [outOfTolerance, sub_sub_cancel, if_pos ⟨hdiffer, sub_neg.2 hlt⟩]
  have hexchange := exchange_of_joining one_ne_zero hjoin (by rw [hworking]; exact Nat.one_pos)
  rwa [hworking] at hexchange

omit [IsStrictOrderedRing K] in
/-- With the inequality active, the run is over if the multiplier is not negative. -/
theorem exchange_end (hworking : s.working = (WorkingSet.empty 1).insert 0)
    (hblocking : s.blocking = none) (hx : s.x = #[x]) (hl : s.multipliers = #[l]) (hsign : 0 ≤ l) :
    exchange? par (halfLine q c a b) s =
      .ok (finish s [.note (.exchange s.iterations none none)]) := by
  refine exchange_of_settled one_ne_zero ?_ (guarded_eq_ok_iff.2 ⟨?_, ?_⟩)
  · rw [joining?, hblocking, mostViolated?, hworking, hx]
    rfl
  · rw [State.CoversWorking, hworking, hl]
    intro i hi
    obtain rfl := List.mem_singleton.1 hi
    exact Nat.one_pos
  · rw [leaving, hworking, show ((WorkingSet.empty 1).insert 0).members = [0] from rfl, hl]
    refine congrArg Selection.choice (if_neg fun h => ?_)
    rw [Bool.and_eq_true, decide_eq_true_eq] at h
    exact absurd h.2 (not_lt.2 hsign)

/-! ## Runs -/

variable [ExactRoots K]

omit [IsStrictOrderedRing K] in
theorem div_sqrt_sqrt (hq : 0 < q) : c / Scalar.sqrt q / Scalar.sqrt q = c / q := by
  rw [div_div, ExactRoots.sqrt_mul_self q hq.le]

omit [IsStrictOrderedRing K] [ExactRoots K] in
/-- However the loop ends, the solution is read off its last state. -/
theorem read_halfLine {offer : Solution K} {opening : Trace K}
    (hstage : initialise? par (halfLine q c a b) (some offer) (start par (halfLine q c a b)).state =
      .ok ⟨halfLineState par q c x, opening⟩) {last : Stage K}
    (hloop : loop? par (halfLine q c a b) par.maxIter (halfLineState par q c x) = .ok last) {v : K}
    (hv : last.state.x = #[v]) :
    ∃ out sol, (halfLine q c a b).solve? par (some offer) = .ok out ∧ out.result = .ok sol ∧
      sol.status = last.state.status ∧ sol.x = last.state.x ∧
      sol.multipliers = some last.state.multipliers := by
  have hsize : last.state.x.size = 1 := congrArg Array.size hv
  exact solve_of_loop fits_halfLine (check_halfLine _) hstage rfl hloop
    (guarded_eq_ok ⟨hsize, hsize, hsize.symm⟩)

/-- Where nothing limits the step, the first iteration goes to the free minimiser. -/
theorem iterate_whole (hq : 0 < q) (hfar : par.solution.isSmall |x| |c / q - x| = false)
    (hstride : stride? par (halfLine q c a b) #[x] #[c / q - x] |c / q - x| [0] = .ok .whole) :
    ∃ trace, iterate? par (halfLine q c a b) (halfLineState par q c x) =
      .ok ⟨{ halfLineState par q c x with status := .approximate, x := #[c / q] }, trace⟩ := by
  have hend : x + (Stride.whole : Stride K).length * (c / q - x) = c / q := by
    rw [Stride.whole, one_mul, add_sub_cancel]
  have hmoved := iterate_halfLineState (div_sqrt_sqrt hq).symm hfar hstride one_pos
  rw [hend] at hmoved
  exact ⟨_, hmoved⟩

/-- A run of one iteration ends behind the half-line if the ratio test leaves the inequality out. -/
theorem solve_overstepping (hiter : par.maxIter = 1) (hq : 0 < q)
    (hpivot : par.zeroThreshold * max 1 |q| < q)
    (haccepted : isFeasible? par (halfLine q c a b) #[x] = .ok true)
    (hloose : par.slack.differ b (a * x) = true)
    (hfar : par.solution.isSmall |x| |c / q - x| = false)
    (hout : limitsStep par |c / q - x| (b - a * x) (a * (c / q - x)) = false)
    (hviolated : b < a * (c / q)) (hdiffer : par.slack.differ b (a * (c / q)) = true)
    (offer : Solution K) (hoffer : offer.status.isApproximate = true) (hpoint : offer.x = #[x]) :
    ∃ out sol, (halfLine q c a b).solve? par (some offer) = .ok out ∧ out.result = .ok sol ∧
      sol.status = .approximate ∧ sol.x = #[c / q] := by
  have hstage := initialise_halfLine (c := c) hpivot haccepted hloose hoffer hpoint
  have hstride : stride? par (halfLine q c a b) #[x] #[c / q - x] |c / q - x| [0] = .ok .whole :=
    stride?_halfLine.trans
      (congrArg Except.ok (if_neg fun h => ne_true_of_eq_false hout h.1))
  obtain ⟨trace, hmoved⟩ := iterate_whole hq hfar hstride
  have hexchange : exchange? par (halfLine q c a b) (State.counted { halfLineState par q c x with
      status := .approximate, x := #[c / q] }) = _ :=
    exchange_joins rfl (Or.inr ⟨rfl, rfl, hviolated, hdiffer⟩)
  have hloop := loop_of_rest 0 hmoved rfl hexchange rfl rfl
  obtain ⟨out, sol, hsolve, hsol, hstatus, hx, -⟩ :=
    read_halfLine hstage (by rw [hiter]; exact hloop) rfl
  exact ⟨out, sol, hsolve, hsol, hstatus, hx⟩

/-! ## Runs without tolerances -/

omit [ExactRoots K] in
theorem isSmall_eq_false (hpar : par.IsExact) (hne : x ≠ m) :
    par.solution.isSmall |x| |m - x| = false := by
  rw [Tolerance.isSmall_eq_decide hpar.solution, decide_eq_false_iff_not, abs_eq_zero]
  exact sub_ne_zero.2 hne.symm

omit [ExactRoots K] in
theorem stride_whole (hpar : par.IsExact) (hx : a * x < b) (hm : a * m ≤ b) (length : K) :
    stride? par (halfLine q c a b) #[x] #[m - x] length [0] = .ok .whole := by
  have hslack : 0 < b - a * x := sub_pos.2 hx
  refine stride?_halfLine.trans (congrArg Except.ok (if_neg ?_))
  rintro ⟨hlimits, hlt⟩
  rw [limitsStep_iff hpar.slack hpar.solution hslack.le] at hlimits
  rw [stepRatio_eq_div hpar.slack, div_lt_one hlimits] at hlt
  linarith

omit [ExactRoots K] in
theorem stride_limited (hpar : par.IsExact) (hx : a * x < b) (hm : b < a * m) (length : K) :
    stride? par (halfLine q c a b) #[x] #[m - x] length [0] =
      .ok ⟨(b - a * x) / (a * (m - x)), some 0⟩ := by
  have hslack : 0 < b - a * x := sub_pos.2 hx
  have hgrows : 0 < a * (m - x) := by linarith
  refine stride?_halfLine.trans (congrArg Except.ok ?_)
  rw [stepRatio_eq_div hpar.slack, if_pos]
  rw [limitsStep_iff hpar.slack hpar.solution hslack.le, div_lt_one hgrows]
  exact ⟨hgrows, by linarith⟩

omit [ExactRoots K] in
/-- The run starts inside of the half-line with an empty working set. -/
theorem initialise_inside (hpar : par.IsExact) (hq : 0 < q) (hx : a * x < b) {offer : Solution K}
    (hoffer : offer.status.isApproximate = true) (hpoint : offer.x = #[x]) :
    ∃ trace, initialise? par (halfLine q c a b) (some offer)
      (start par (halfLine q c a b)).state = .ok ⟨halfLineState par q c x, trace⟩ := by
  have hpivot : par.zeroThreshold * max 1 |q| < q := by rwa [hpar.zeroThreshold, zero_mul]
  have haccepted : isFeasible? par (halfLine q c a b) #[x] = .ok true := by
    rw [isFeasible?_halfLine, decide_eq_true hx.le]
    rfl
  have hloose := (Tolerance.differ_iff hpar.slack b (a * x)).2 hx.ne'
  exact ⟨_, initialise_halfLine hpivot haccepted hloose hoffer hpoint⟩

/-- The first iteration goes to the end of the half-line if the free minimiser lies behind. -/
theorem iterate_limited (hpar : par.IsExact) (hq : 0 < q) (hx : a * x < b)
    (hm : b < a * (c / q)) :
    ∃ trace, iterate? par (halfLine q c a b) (halfLineState par q c x) =
      .ok ⟨{ halfLineState par q c x with
        status := .approximate, x := #[b / a], blocking := some 0 }, trace⟩ := by
  have hway : 0 < a * (c / q - x) := by linarith
  obtain ⟨ha, hne⟩ := mul_ne_zero_iff.1 hway.ne'
  have hend : x + (b - a * x) / (a * (c / q - x)) * (c / q - x) = b / a := by
    rw [← div_div, div_mul_cancel₀ _ hne, sub_div, mul_div_cancel_left₀ _ ha, add_sub_cancel]
  have hmoved := iterate_halfLineState (div_sqrt_sqrt hq).symm
    (isSmall_eq_false hpar (sub_ne_zero.1 hne).symm) (stride_limited hpar hx hm _)
    (div_pos (sub_pos.2 hx) hway)
  rw [hend] at hmoved
  exact ⟨_, hmoved⟩

/-- The state in which a run iterates again at the end of the half-line. -/
def endState (par : Params K) (q c a b x : K) : State K :=
  { halfLineState par q c x with
    status := .approximate
    x := #[b / a]
    working := (WorkingSet.empty 1).insert 0
    blocking := some 0
    iterations := 1 }

omit [IsStrictOrderedRing K] [ExactRoots K] in
theorem ready_endState : Ready (halfLine q c a b) (endState par q c a b x) := by
  refine ⟨⟨rfl, rfl, rfl, rfl⟩, fun l hl => ?_, fun m hm => ?_, fun i hi => ?_⟩
  · obtain rfl := Option.some.inj hl
    rfl
  · obtain rfl := Option.some.inj hm
    rfl
  · obtain rfl := Option.some.inj hi
    exact Nat.one_pos

omit [IsStrictOrderedRing K] [ExactRoots K] in
theorem computed_endState (hq : par.zeroThreshold * max 1 |q| < q) :
    Computed par (halfLine q c a b) (endState par q c a b x) := by
  refine ⟨(guarded_eq_ok_iff.1 (Cholesky.compute?_single hq)).2.symm, rfl, fun m hm => ?_⟩
  obtain rfl := Option.some.inj hm
  exact Cholesky.solveVec?_single _ _ _

omit [Exact K] [ExactRoots K] in
/-- A multiplier at the end of the half-line pulls towards the free minimiser. -/
theorem multiplier_pos (hq : 0 < q) (ha : a ≠ 0) (hm : b < a * (c / q)) :
    0 < (c - q * (b / a)) / a := by
  have hsquare : (c - q * (b / a)) / a = q * (a * (c / q) - b) / (a * a) := by field_simp
  rw [hsquare]
  exact div_pos (mul_pos hq (sub_pos.2 hm)) (mul_self_pos.2 ha)

/-- From there the run is over after one more iteration. -/
theorem loop_endState (hpar : par.IsExact) (hq : 0 < q) (ha : a ≠ 0) (hm : b < a * (c / q))
    (x : K) (fuel : ℕ) :
    ∃ last, loop? par (halfLine q c a b) (fuel + 1) (endState par q c a b x) = .ok last ∧
      last.state.status = .optimal ∧ last.state.x = #[b / a] ∧
      last.state.multipliers = #[(c - q * (b / a)) / a] := by
  have hpivot : par.zeroThreshold * max 1 |q| < q := by rwa [hpar.zeroThreshold, zero_mul]
  obtain ⟨lu, trace, hmoved⟩ :=
    iterate_end hpar ha ready_endState (computed_endState (x := x) hpivot) rfl rfl
  have hexchange : exchange? par (halfLine q c a b) (State.counted { endState par q c a b x with
      status := .feasible
      multipliers := #[(c - q * (b / a)) / a]
      lu
      blocking := none }) = _ := exchange_end rfl rfl rfl rfl (multiplier_pos hq ha hm).le
  exact ⟨_, loop_of_exchange fuel hmoved rfl hexchange rfl, rfl, rfl, rfl⟩

/-- If the free minimiser lies inside, the run is over after the first iteration. -/
theorem loop_free (hpar : par.IsExact) (hq : 0 < q) (hx : a * x < b) (hne : x ≠ c / q)
    (hm : a * (c / q) ≤ b) (fuel : ℕ) :
    ∃ last, loop? par (halfLine q c a b) (fuel + 1) (halfLineState par q c x) = .ok last ∧
      last.state.status = .optimal ∧ last.state.x = #[c / q] ∧
      last.state.multipliers = #[0] := by
  obtain ⟨trace, hmoved⟩ := iterate_whole hq (isSmall_eq_false hpar hne) (stride_whole hpar hx hm _)
  have hexchange : exchange? par (halfLine q c a b) (State.counted { halfLineState par q c x with
      status := .approximate, x := #[c / q] }) = _ := exchange_inside rfl rfl rfl hm
  exact ⟨_, loop_of_exchange fuel hmoved rfl hexchange rfl, rfl, rfl, rfl⟩

/-- Otherwise the first iteration is limited, and the run is over after the second one. -/
theorem loop_limited (hpar : par.IsExact) (hq : 0 < q) (hx : a * x < b) (hm : b < a * (c / q))
    (fuel : ℕ) :
    ∃ last, loop? par (halfLine q c a b) (fuel + 2) (halfLineState par q c x) = .ok last ∧
      last.state.status = .optimal ∧ last.state.x = #[b / a] ∧
      last.state.multipliers = #[(c - q * (b / a)) / a] := by
  have ha : a ≠ 0 := by
    rintro rfl
    rw [zero_mul] at hx hm
    exact lt_asymm hx hm
  obtain ⟨trace, hmoved⟩ := iterate_limited hpar hq hx hm
  have hexchange : exchange? par (halfLine q c a b) (State.counted { halfLineState par q c x with
      status := .approximate, x := #[b / a], blocking := some 0 }) = _ :=
    exchange_joins (x := x) rfl (Or.inl rfl)
  obtain ⟨last, hrest, hend⟩ := loop_endState hpar hq ha hm x fuel
  exact ⟨_, loop_of_rest (fuel + 1) hmoved rfl hexchange rfl hrest, hend⟩

/-- A run from a point inside of the half-line ends at its minimum: at the free minimiser, or else
at the end of the half-line with the multiplier that the gradient asks for. -/
theorem solve_halfLine (hpar : par.IsExact) (hiter : 2 ≤ par.maxIter) (hq : 0 < q)
    (hx : a * x < b) (hne : x ≠ c / q) (offer : Solution K)
    (hoffer : offer.status.isApproximate = true) (hpoint : offer.x = #[x]) :
    ∃ out sol, (halfLine q c a b).solve? par (some offer) = .ok out ∧ out.result = .ok sol ∧
      sol.status = .optimal ∧
      ((a * (c / q) ≤ b ∧ sol.x = #[c / q] ∧ sol.multipliers = some #[0]) ∨
        b < a * (c / q) ∧ sol.x = #[b / a] ∧
          sol.multipliers = some #[(c - q * (b / a)) / a]) := by
  obtain ⟨opening, hstage⟩ := initialise_inside (c := c) hpar hq hx hoffer hpoint
  obtain ⟨fuel, hfuel⟩ := Nat.exists_eq_add_of_le' hiter
  rcases le_or_gt (a * (c / q)) b with hfree | hlimited
  · obtain ⟨last, hloop, hstatus, hlx, hll⟩ := loop_free hpar hq hx hne hfree (fuel + 1)
    obtain ⟨out, sol, hsolve, hsol, hsame, hsx, hsl⟩ :=
      read_halfLine hstage (hfuel ▸ hloop) hlx
    exact ⟨out, sol, hsolve, hsol, hsame.trans hstatus,
      Or.inl ⟨hfree, hsx.trans hlx, hsl.trans (congrArg some hll)⟩⟩
  · obtain ⟨last, hloop, hstatus, hlx, hll⟩ := loop_limited hpar hq hx hlimited fuel
    obtain ⟨out, sol, hsolve, hsol, hsame, hsx, hsl⟩ :=
      read_halfLine hstage (hfuel ▸ hloop) hlx
    exact ⟨out, sol, hsolve, hsol, hsame.trans hstatus,
      Or.inr ⟨hlimited, hsx.trans hlx, hsl.trans (congrArg some hll)⟩⟩

end Order

end ActiveSet

end QuadProg
