import QuadProg.Proofs.Totality

/-!
# Offered points that are no numbers

The test of an offered point asks whether a row differs from its bound, and only a comparison that
holds lets it differ. A comparison with a value that is no number never holds, so a row whose value
is none passes the test. An offered point with such a coordinate spoils the value of every row: the
start adopts it whatever the constraints are, also if no point satisfies them. Since a step is added
to the point, the coordinate stays as it is, and the run ends at such a point and never reports that
the constraints cannot be satisfied.
-/

namespace QuadProg

/-- The value is not a number: it differs from itself. -/
def Scalar.IsNaN {α : Type} [Scalar α] (v : α) : Prop := (v == v) = false

/-- No comparison with a value that is not a number holds, and arithmetic does not make a number of
it; numbers are ordered. -/
class Scalar.NaNLaws (α : Type) [Scalar α] : Prop extends Scalar.SignLaws α where
  not_lt_of_nan : ∀ a b : α, IsNaN a ∨ IsNaN b → ¬ a < b
  not_le_of_nan : ∀ a b : α, IsNaN a ∨ IsNaN b → ¬ a ≤ b
  add_nan : ∀ a b : α, IsNaN a ∨ IsNaN b → IsNaN (a + b)
  sub_nan : ∀ a b : α, IsNaN a ∨ IsNaN b → IsNaN (a - b)
  mul_nan : ∀ a b : α, IsNaN a ∨ IsNaN b → IsNaN (a * b)
  abs_nan : ∀ a : α, IsNaN a → IsNaN (Scalar.abs a)
  le_of_not_lt : ∀ a b : α, ¬ IsNaN a → ¬ IsNaN b → ¬ a < b → b ≤ a
  not_lt_of_le : ∀ a b : α, a ≤ b → ¬ b < a

open Scalar

variable {α : Type} [Scalar α]

/-! ## The test of a row -/

namespace Tolerance

variable {tol : Tolerance α} {b v : α}

/-- One of the comparisons by which the value `v` meets the bound `b` holds. -/
def Meets (tol : Tolerance α) (b v : α) : Prop :=
  Scalar.abs (b - v) ≤ tol.absolute ∨
    Scalar.abs (b - v) ≤ tol.relative * Scalar.max (Scalar.abs b) (Scalar.abs v)

/-- One of the numbers that are compared to tell the value `v` and the bound `b` apart is none. -/
def Unordered (tol : Tolerance α) (b v : α) : Prop :=
  IsNaN (Scalar.abs (b - v)) ∨ IsNaN (tol.relative * Scalar.max (Scalar.abs b) (Scalar.abs v))

variable [NaNLaws α]

theorem differ_eq_false_iff_meets (habsolute : ¬ IsNaN tol.absolute) :
    tol.differ b v = false ↔ tol.Meets b v ∨ tol.Unordered b v := by
  unfold differ Meets Unordered
  dsimp only
  generalize Scalar.abs (b - v) = d
  generalize tol.relative * Scalar.max (Scalar.abs b) (Scalar.abs v) = r
  rw [Bool.and_eq_false_iff, decide_eq_false_iff_not, decide_eq_false_iff_not]
  constructor
  · intro hsame
    by_cases hd : IsNaN d
    · exact Or.inr (Or.inl hd)
    · by_cases hr : IsNaN r
      · exact Or.inr (Or.inr hr)
      · exact Or.inl (hsame.imp (NaNLaws.le_of_not_lt _ _ habsolute hd)
          (NaNLaws.le_of_not_lt _ _ hr hd))
  · rintro ((hle | hle) | (hd | hr))
    · exact Or.inl (NaNLaws.not_lt_of_le _ _ hle)
    · exact Or.inr (NaNLaws.not_lt_of_le _ _ hle)
    · exact Or.inl (NaNLaws.not_lt_of_nan _ _ (Or.inr hd))
    · exact Or.inr (NaNLaws.not_lt_of_nan _ _ (Or.inl hr))

/-- A value that is not a number meets no bound and differs from none. -/
theorem not_meets_of_nan (hv : IsNaN v) : ¬ tol.Meets b v ∧ tol.differ b v = false := by
  have hd : IsNaN (Scalar.abs (b - v)) := NaNLaws.abs_nan _ (NaNLaws.sub_nan _ _ (Or.inr hv))
  constructor
  · rintro (hle | hle)
    · exact NaNLaws.not_le_of_nan _ _ (Or.inl hd) hle
    · exact NaNLaws.not_le_of_nan _ _ (Or.inl hd) hle
  · rw [differ, Bool.and_eq_false_iff]
    exact Or.inl (decide_eq_false (NaNLaws.not_lt_of_nan _ _ (Or.inr hd)))

end Tolerance

/-! ## Values of rows -/

section Values

variable [NaNLaws α] {x : Vec α} {i : ℕ}

theorem Scalar.isNaN_sumTo {f : ℕ → α} {n k : ℕ} (hk : k < n) (h : IsNaN (f k)) :
    IsNaN (sumTo f n) := by
  induction n with
  | zero => exact absurd hk (Nat.not_lt_zero k)
  | succ n ih =>
    rw [sumTo]
    rcases Nat.eq_or_lt_of_le (Nat.le_of_lt_succ hk) with rfl | hlt
    · exact NaNLaws.add_nan _ _ (Or.inr h)
    · exact NaNLaws.add_nan _ _ (Or.inl (ih hlt))

/-- A coordinate that is not a number spoils the value of every row, also where its coefficient is
zero. -/
theorem Mat.isNaN_entry_mulVec {a : Mat α} {r : ℕ} (hr : r < a.rows) (hi : i < a.cols)
    (h : IsNaN (x.entry i)) : IsNaN ((a.mulVec x).entry r) := by
  rw [Mat.entry_mulVec hr, Mat.rowDot]
  refine NaNLaws.add_nan _ _ (Or.inl (NaNLaws.mul_nan _ _ (Or.inr (isNaN_sumTo hi ?_))))
  exact NaNLaws.mul_nan _ _ (Or.inr h)

theorem Vec.isNaN_entry_addScaled {y : Vec α} (a : α) (h : IsNaN (y.entry i)) :
    IsNaN ((Vec.addScaled a x y).entry i) := by
  by_cases hi : i < y.size
  · rw [Vec.entry_addScaled hi]
    exact NaNLaws.add_nan _ _ (Or.inl h)
  · have hzero : ∀ z : Vec α, ¬ i < z.size → z.entry i = 0 := fun z hz => by
      simp [Vec.entry, Array.getD, hz]
    rw [hzero _ (by rwa [Vec.size_addScaled]), ← hzero y hi]
    exact h

end Values

namespace ActiveSet

variable {par : Params α} {p : QuadraticProgram α} {s s₀ s' : State α} {x : Vec α} {i : ℕ}

/-! ## The start -/

/-- The start takes over the point as it is, without a linear program. -/
structure Adopted (source : Status) (x : Vec α) (stage : Stage α) : Prop where
  status : stage.state.status = .feasible
  point : stage.state.x = x
  trace : stage.trace = Trace.transition source .feasible ++
    [.note (.initialSet stage.state.working)]

/-- Every row passes: its comparisons hold or cannot be made. -/
structure RowsPass (par : Params α) (p : QuadraticProgram α) (x : Vec α) : Prop where
  equality : ∀ r < p.me, par.slack.Meets (p.be.get r 0) ((p.ae.mulVec x).entry r) ∨
    par.slack.Unordered (p.be.get r 0) ((p.ae.mulVec x).entry r)
  inequality : ∀ r < p.mi, (p.ai.mulVec x).entry r ≤ p.bound r ∨
    par.slack.Meets (p.bound r) ((p.ai.mulVec x).entry r) ∨
      par.slack.Unordered (p.bound r) ((p.ai.mulVec x).entry r)

/-- Of no row a comparison holds. -/
structure NoRowMet (par : Params α) (p : QuadraticProgram α) (x : Vec α) : Prop where
  equality : ∀ r < p.me, ¬ par.slack.Meets (p.be.get r 0) ((p.ae.mulVec x).entry r)
  inequality : ∀ r < p.mi, ¬ (p.ai.mulVec x).entry r ≤ p.bound r ∧
    ¬ par.slack.Meets (p.bound r) ((p.ai.mulVec x).entry r)

theorem isConstrained_of_not_rowsPass (h : ¬ RowsPass par p x) : p.isConstrained = true := by
  refine decide_eq_true (Nat.pos_of_ne_zero fun hnone => h ⟨fun r hr => ?_, fun r hr => ?_⟩)
  · omega
  · omega

/-- The simplex method leaves its remarks in the trace of a search. -/
theorem trace_searchByProgram {offer : Option (Vec α)} {found : Search α}
    (h : searchByProgram? par p s offer = .ok found) :
    ∃ rows cols rest, found.trace = .note (.simplexStart rows cols) :: rest := by
  obtain ⟨t, -, h⟩ := Checked.bind_eq_ok_iff.1 h
  dsimp only at h
  split at h
  · obtain ⟨-, -, h⟩ := Checked.bind_eq_ok_iff.1 h
    obtain rfl := Except.ok.inj h
    exact ⟨_, _, _, rfl⟩
  · obtain rfl := Except.ok.inj h
    exact ⟨_, _, _, rfl⟩

/-- An offered point is adopted just when it passes the test. -/
theorem adopted_iff_accepted {k : Solution α} (hk : k.status.isApproximate = true)
    (hsize : k.x.size = p.n) {accepted : Bool} (haccepted : isFeasible? par p k.x = .ok accepted)
    (hx : s.x.size = p.n) {stage : Stage α} (h : initialise? par p (some k) s = .ok stage) :
    Adopted s.status k.x stage ↔ accepted = true := by
  cases accepted with
  | true =>
    obtain ⟨hstatus, hpoint, htrace⟩ := initialise_accepts hk hsize haccepted hx h
    exact iff_of_true ⟨hstatus, hpoint, htrace⟩ rfl
  | false =>
    refine iff_of_false (fun hadopted => ?_) Bool.false_ne_true
    obtain ⟨found, hfound, hend⟩ := initialise_step h
    rw [usableOffer_eq_some hk hsize, search_eq (s := { s with
      cholesky := s.cholesky.compute p.q, working := s.working.clear }) (hsize.trans hx.symm)
      haccepted, if_neg Bool.false_ne_true, searchAnew?] at hfound
    split at hfound
    · obtain ⟨rows, cols, rest, htrace⟩ := trace_searchByProgram hfound
      -- The first record of the trace tells the two ways of finding a start apart.
      have hhead : stage.trace.head? = some (.note (.simplexStart rows cols)) := by
        rcases hend with ⟨-, s', -, rfl⟩ | ⟨-, rfl⟩ <;> rw [htrace] <;> rfl
      rw [hadopted.trace, Trace.transition] at hhead
      split at hhead <;> cases hhead
    · next hfree =>
      have hrows : ¬ 0 < p.me + p.mi := fun hpos => hfree (decide_eq_true hpos)
      refine absurd ((accepted_iff_rows haccepted).2 ⟨fun r hr => ?_, fun r hr => ?_⟩)
        Bool.false_ne_true
      · omega
      · omega

variable [NaNLaws α]

theorem accepted_iff_rowsPass (habsolute : ¬ IsNaN par.slack.absolute) {accepted : Bool}
    (h : isFeasible? par p x = .ok accepted) : accepted = true ↔ RowsPass par p x := by
  rw [accepted_iff_rows h]
  constructor
  · rintro ⟨hequality, hinequality⟩
    refine ⟨fun r hr => ?_, fun r hr => ?_⟩
    · exact (Tolerance.differ_eq_false_iff_meets habsolute).1 (hequality r hr)
    · exact (hinequality r hr).imp_right (Tolerance.differ_eq_false_iff_meets habsolute).1
  · intro hpass
    refine ⟨fun r hr => ?_, fun r hr => ?_⟩
    · exact (Tolerance.differ_eq_false_iff_meets habsolute).2 (hpass.equality r hr)
    · exact (hpass.inequality r hr).imp_right (Tolerance.differ_eq_false_iff_meets habsolute).2

section Spoiled

variable (hp : p.WellSized) (hi : i < p.n)

include hp hi

theorem isNaN_equality (h : IsNaN (x.entry i)) {r : ℕ} (hr : r < p.me) :
    IsNaN ((p.ae.mulVec x).entry r) :=
  Mat.isNaN_entry_mulVec hr (hi.trans_eq hp.ae_cols.symm) h

theorem isNaN_inequality (h : IsNaN (x.entry i)) {r : ℕ} (hr : r < p.mi) :
    IsNaN ((p.ai.mulVec x).entry r) :=
  Mat.isNaN_entry_mulVec hr (hi.trans_eq hp.ai_cols.symm) h

theorem noRowMet_of_nan (h : IsNaN (x.entry i)) : NoRowMet par p x :=
  ⟨fun _ hr => (Tolerance.not_meets_of_nan (isNaN_equality hp hi h hr)).1, fun _ hr =>
    ⟨NaNLaws.not_le_of_nan _ _ (Or.inl (isNaN_inequality hp hi h hr)),
      (Tolerance.not_meets_of_nan (isNaN_inequality hp hi h hr)).1⟩⟩

/-- A point with a coordinate that is not a number passes the test whatever the constraints are. -/
theorem accepted_of_nan (h : IsNaN (x.entry i)) {accepted : Bool}
    (htest : isFeasible? par p x = .ok accepted) : accepted = true :=
  (accepted_iff_rows htest).2
    ⟨fun _ hr => (Tolerance.not_meets_of_nan (isNaN_equality hp hi h hr)).2, fun _ hr =>
      Or.inr (Tolerance.not_meets_of_nan (isNaN_inequality hp hi h hr)).2⟩

/-! ## The run -/

/-- An iteration only ever adds to a coordinate, and the test that could end it at a point that does
not satisfy the constraints is passed. -/
theorem Attempted.isNaN_entry (h : Attempted par p s s') (hx : IsNaN (s.x.entry i)) :
    IsNaN (s'.x.entry i) ∧ s'.status ≠ .infeasible := by
  cases h with
  | stepped outcome target stage solved found step =>
    obtain ⟨-, -, ⟨-, hstate⟩ | ⟨-, stride, -, hstate⟩⟩ := takeStep_cases step
    · rw [hstate]
      exact ⟨hx, nofun⟩
    · rw [hstate]
      refine ⟨?_, nofun⟩
      dsimp only
      split
      · exact Vec.isNaN_entry_addScaled _ hx
      · exact hx
  | stuck outcome feasible solved unsolvable empty test =>
    rw [accepted_of_nan hp hi hx test]
    exact ⟨hx, nofun⟩
  | exhausted outcome solved nonempty => exact ⟨hx, nofun⟩

theorem isNaN_of_iterate {moved : Stage α} (h : iterate? par p s = .ok moved)
    (hx : IsNaN (s.x.entry i)) :
    IsNaN (moved.state.x.entry i) ∧ moved.state.status ≠ .infeasible := by
  obtain ⟨s', hshrunk, hattempt⟩ := iterate_cases h
  have hsame : s'.x = s.x := hshrunk.x
  exact hattempt.isNaN_entry hp hi (hsame ▸ hx)

theorem Reached.isNaN_entry (h : Reached par p s₀ s) (h₀ : IsNaN (s₀.x.entry i)) :
    IsNaN (s.x.entry i) := by
  induction h with
  | start => exact h₀
  | next _ iterated _ exchanged _ ih =>
    rw [(exchange_cases exchanged).x]
    exact (isNaN_of_iterate hp hi iterated ih).1

theorem Ended.isNaN_entry (h : Ended par p s₀ s) (h₀ : IsNaN (s₀.x.entry i))
    (hstatus : s₀.status = .feasible) : IsNaN (s.x.entry i) ∧ s.status ≠ .infeasible := by
  cases h with
  | limit reached =>
    refine ⟨reached.isNaN_entry hp hi h₀, fun hinfeasible => ?_⟩
    have hfeasible := isFeasible_of_reached hstatus reached
    rw [hinfeasible] at hfeasible
    cases hfeasible
  | failed reached iterated failure =>
    exact isNaN_of_iterate hp hi iterated (reached.isNaN_entry hp hi h₀)
  | finished reached iterated usable exchanged ends =>
    have hexchange := exchange_cases exchanged
    have hx := (isNaN_of_iterate hp hi iterated (reached.isNaN_entry hp hi h₀)).1
    refine ⟨by rwa [hexchange.x], fun hinfeasible => ?_⟩
    rw [hexchange.status, ends] at hinfeasible
    cases hinfeasible

end Spoiled

end ActiveSet

namespace QuadraticProgram

open ActiveSet

theorem exists_solution_of_solve {par : Params α} {p : QuadraticProgram α}
    {offer : Option (Solution α)} (hcheck : p.check par.zeroThreshold = .ok ()) {out : Outcome α}
    (h : p.solve? par offer = .ok out) : ∃ sol, out.result = .ok sol := by
  obtain ⟨-, -, h⟩ := Checked.bind_eq_ok_iff.1 h
  rw [hcheck] at h
  obtain ⟨stage, -, h⟩ := Checked.bind_eq_ok_iff.1 h
  obtain ⟨last, -, h⟩ := Checked.bind_eq_ok_iff.1 h
  obtain ⟨sol, -, h⟩ := Checked.bind_eq_ok_iff.1 h
  exact ⟨sol, (Except.ok.inj h) ▸ rfl⟩

/-- An offered point that is adopted to begin with and has a coordinate that is not a number keeps
it until the end of the run. -/
theorem isNaN_of_solve [NaNLaws α] {par : Params α} {p : QuadraticProgram α} {k : Solution α}
    (hp : p.WellSized) (hk : k.status.isApproximate = true) (hsize : k.x.size = p.n) {i : ℕ}
    (hi : i < p.n) (hnan : IsNaN (k.x.entry i)) {out : Outcome α} {sol : Solution α}
    (h : p.solve? par (some k) = .ok out) (hsol : out.result = .ok sol) :
    IsNaN (sol.x.entry i) ∧ sol.status ≠ .infeasible := by
  obtain ⟨-, stage, s, hstage, hend, hstatus, hx, -⟩ := solve_cases h hsol
  obtain ⟨accepted, haccepted⟩ := isFeasible_total par hp hsize
  obtain rfl := accepted_of_nan hp hi hnan haccepted
  have hadopted := (adopted_iff_accepted hk hsize haccepted (Vec.size_zeros p.n) hstage).2 rfl
  rw [hstatus, hx]
  rcases hend with ⟨-, last, rfl, hloop⟩ | ⟨hnone, -⟩
  · exact (ended_of_loop .start hloop).isNaN_entry hp hi (by rwa [hadopted.point]) hadopted.status
  · rw [hadopted.status] at hnone
    cases hnone

/-- An offered point is adopted just when in each row the comparisons that should tell it from a
feasible point hold or cannot be made; otherwise the linear program is run, if there is room for it.
So a point with a coordinate that is not a number is always adopted, although no comparison of any
row holds, and it is what the solution ends with, whose status never says that the constraints
cannot be satisfied. -/
theorem start_adopts_unordered [NaNLaws α] (par : Params α) (p : QuadraticProgram α)
    (k : Solution α) (status : Status) (hp : p.IsBuilt)
    (hcheck : p.check par.zeroThreshold = .ok ()) (hbe : p.be.HasNumbers) (hbi : p.bi.HasNumbers)
    (habsolute : ¬ IsNaN par.slack.absolute) (hk : k.status.isApproximate = true)
    (hsize : k.x.size = p.n) :
    (RowsPass par p k.x ∨ StartFits p →
      ∃ stage, initialise? par p (some k) { State.init p par.zeroThreshold with status } =
          .ok stage ∧ (Adopted status k.x stage ↔ RowsPass par p k.x)) ∧
    (¬ RowsPass par p k.x → ¬ StartFits p →
      initialise? par p (some k) { State.init p par.zeroThreshold with status } =
        .error .tooLarge) ∧
    ∀ i < p.n, IsNaN (k.x.entry i) →
      NoRowMet par p k.x ∧
      (∃ stage, initialise? par p (some k) { State.init p par.zeroThreshold with status } =
        .ok stage ∧ Adopted status k.x stage) ∧
      (p.Fits → ∃ out sol, p.solve? par (some k) = .ok out ∧ out.result = .ok sol ∧
        IsNaN (sol.x.entry i) ∧ sol.status ≠ .infeasible) := by
  have hsized := hp.wellSized hcheck
  have hme := hsized.me_le_n hcheck
  have hsigned := hsized.hasSignedBounds hbe hbi
  have husable := usableOffer_eq_some (p := p) hk hsize
  obtain ⟨accepted, haccepted⟩ := isFeasible_total par hsized hsize
  have hpass := accepted_iff_rowsPass habsolute haccepted
  -- The search is spared where every row passes, and so is the room that it takes.
  have hspared : RowsPass par p k.x → ¬ NeedsSearch par p (usableOffer p (some k)) := by
    intro hrows hneeded
    have hrejected := hneeded.2 k.x husable
    rw [haccepted, hpass.2 hrows] at hrejected
    cases hrejected
  have hstart : RowsPass par p k.x ∨ StartFits p →
      ∃ stage, initialise? par p (some k) { State.init p par.zeroThreshold with status } =
          .ok stage ∧ (Adopted status k.x stage ↔ RowsPass par p k.x) := by
    intro hroom
    obtain ⟨stage, hstage, -⟩ := initialise_fits par
      (s := { State.init p par.zeroThreshold with status }) hsized hsigned hme (some k)
      (fun hneeded => hroom.resolve_left fun hrows => hspared hrows hneeded)
      (Vec.size_zeros p.n) (Vec.size_zeros _) (WorkingSet.count_empty p.mi)
    exact ⟨stage, hstage,
      (adopted_iff_accepted hk hsize haccepted (Vec.size_zeros p.n) hstage).trans hpass⟩
  refine ⟨hstart, fun hrows hroom => ?_, fun i hi hnan => ?_⟩
  · refine initialise_refused hsized (Vec.size_zeros p.n) ⟨?_, fun x hx => ?_⟩ hroom
    · exact isConstrained_of_not_rowsPass hrows
    · rw [husable] at hx
      obtain rfl := Option.some.inj hx
      rw [haccepted, Bool.eq_false_of_not_eq_true fun htrue => hrows (hpass.1 htrue)]
  · have hrows : RowsPass par p k.x := hpass.1 (accepted_of_nan hsized hi hnan haccepted)
    obtain ⟨stage, hstage, hadopted⟩ := hstart (Or.inl hrows)
    refine ⟨noRowMet_of_nan hsized hi hnan, ⟨stage, hstage, hadopted.2 hrows⟩, fun hfits => ?_⟩
    obtain ⟨out, hout⟩ : ∃ out, p.solve? par (some k) = .ok out := by
      rw [solve?, require_eq_ok hfits, hcheck]
      exact solveValid_total par (some k) hsized hme hsigned fun hneeded =>
        absurd hneeded (hspared hrows)
    obtain ⟨sol, hsol⟩ := exists_solution_of_solve hcheck hout
    exact ⟨out, sol, hout, hsol, isNaN_of_solve hsized hk hsize hi hnan hout hsol⟩

end QuadraticProgram

/-! ## A sample -/

namespace Lossy

theorem isNaN_iff {v : Lossy} : IsNaN v ↔ v = .nan := by
  cases v with
  | nan => exact iff_of_true rfl rfl
  | num x =>
    have hself : (num x == num x) = true := decide_eq_true rfl
    exact iff_of_false (fun h => Bool.false_ne_true (h.symm.trans hself)) nofun

theorem not_compare_of_nan (r : ℚ → ℚ → Bool) {a b : Lossy} (h : IsNaN a ∨ IsNaN b) :
    ¬ compare r a b = true := by
  rw [isNaN_iff, isNaN_iff] at h
  rcases h with rfl | rfl
  · exact Bool.false_ne_true
  · cases a <;> exact Bool.false_ne_true

theorem isNaN_map_map (f : ℚ → ℚ → Lossy) {a b : Lossy} (h : IsNaN a ∨ IsNaN b) :
    IsNaN (a.map fun x => b.map fun y => f x y) := by
  rw [isNaN_iff, isNaN_iff] at h
  rcases h with rfl | rfl
  · rfl
  · cases a <;> rfl

instance : Scalar.NaNLaws Lossy where
  not_lt_of_nan _ _ h := not_compare_of_nan _ h
  not_le_of_nan _ _ h := not_compare_of_nan _ h
  add_nan _ _ h := isNaN_map_map _ h
  sub_nan _ _ h := isNaN_map_map _ h
  mul_nan _ _ h := isNaN_map_map _ h
  abs_nan a h := by
    rw [isNaN_iff.1 h]
    rfl
  le_of_not_lt a b ha hb h := by
    rw [isNaN_iff] at ha hb
    cases a with
    | nan => exact absurd rfl ha
    | num x =>
      cases b with
      | nan => exact absurd rfl hb
      | num y => exact decide_eq_true (not_lt.1 fun hlt => h (decide_eq_true hlt))
  not_lt_of_le a b hle hlt := by
    cases a with
    | nan => cases hle
    | num x =>
      cases b with
      | nan => cases hle
      | num y => exact absurd (of_decide_eq_true hlt) (not_lt.2 (of_decide_eq_true hle))

/-- Minimise `x² / 2` subject to `x ≤ 1` and `-x ≤ -2`, which no point satisfies. -/
def emptySample : QuadraticProgram Lossy :=
  .ofData (cell (.num 1)) (cell (.num 0)) none none (some (column (.num 1) (.num (-1))))
    (some (column (.num 1) (.num (-2))))

/-- Parameters without tolerances. -/
def exactParams : Params Lossy :=
  ⟨10, 10, .num 0, .num 0, ⟨.num 0, .num 0⟩, ⟨.num 0, .num 0⟩, ⟨.num 0, .num 0⟩, ⟨.num 0, .num 0⟩⟩

/-- A point that is not a number, offered as an approximate solution. -/
def nanOffer : Solution Lossy := ⟨.approximate, #[.nan], none, .num 0, 0⟩

end Lossy

open Lossy ActiveSet in
/-- The run that starts at a point that is not a number reports it as an optimum of a program that
no point satisfies. -/
theorem start_adopts_unordered_emptySample :
    (∃ stage, initialise? exactParams emptySample (some nanOffer)
      (State.init emptySample (.num 0)) = .ok stage ∧ Adopted .unexplored nanOffer.x stage) ∧
    NoRowMet exactParams emptySample nanOffer.x ∧
    ∃ out sol, emptySample.solve? exactParams (some nanOffer) = .ok out ∧ out.result = .ok sol ∧
      sol.status = .optimal ∧ IsNaN (sol.x.entry 0) := by
  have hnan : IsNaN (nanOffer.x.entry 0) := rfl
  have hoptimal : (emptySample.solve? exactParams (some nanOffer)).map
      (fun out => out.result.map Solution.status) = .ok (.ok .optimal) := by decide +kernel
  obtain ⟨-, -, hspoiled⟩ := QuadraticProgram.start_adopts_unordered exactParams
    emptySample nanOffer .unexplored ⟨_, _, _, _, _, _, rfl⟩ (by decide +kernel) (by decide +kernel)
    (by decide +kernel) (fun h => nomatch isNaN_iff.1 h) rfl rfl
  obtain ⟨hnone, ⟨stage, hstage, hadopted⟩, hrun⟩ := hspoiled 0 (by decide +kernel) hnan
  obtain ⟨out, sol, hout, hsol, hend, -⟩ := hrun (by decide +kernel)
  refine ⟨⟨stage, hstage, hadopted⟩, hnone, out, sol, hout, hsol, ?_, hend⟩
  rw [hout] at hoptimal
  simpa [Except.map, hsol] using hoptimal

end QuadProg
