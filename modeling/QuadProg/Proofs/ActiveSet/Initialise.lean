import QuadProg.Proofs.ActiveSet.Feasibility
import QuadProg.Proofs.ActiveSet.Ready
import QuadProg.Proofs.Tableau.Tolerance

/-!
# The start decides feasibility

The search for a starting point always comes to an answer. On a program that passed its checks no
operation is refused, and the status in which the search ends is true of the program: a point with a
tight working set of at most as many rows as there are variables, the absence of any point, or, at
the limit of pivots, neither.
-/

namespace QuadProg

open Finset

namespace ActiveSet

section Total

variable {α : Type} [Scalar α]
variable {par : Params α} {p : QuadraticProgram α} {s : State α}

/-- No ratio that occurs in the search for a starting point reaches the number that stands for no
ratio. -/
def StartRatiosBelowMax (par : Params α) (p : QuadraticProgram α) (offer : Option (Vec α)) : Prop :=
  ∀ t, startTableau? p offer = .ok t →
    ∀ t' ∈ Tableau.tested par par.maxIter t, t'.RatiosBelowMax par

instance (par : Params α) (p : QuadraticProgram α) (offer : Option (Vec α)) :
    Decidable (StartRatiosBelowMax par p offer) :=
  match hstart : startTableau? p offer with
  | .ok t =>
    decidable_of_iff (∀ t' ∈ Tableau.tested par par.maxIter t, t'.RatiosBelowMax par)
      ⟨fun h _ ht => Except.ok.inj (hstart.symm.trans ht) ▸ h, fun h => h t hstart⟩
  | .error _ => .isTrue fun _ ht => nomatch hstart.symm.trans ht

/-! ## Nothing is refused -/

theorem startGradient_total (hp : p.WellSized) {offer : Option (Vec α)}
    (hoffer : ∀ x ∈ offer, x.size = p.n) :
    ∃ g, startGradient? p offer = .ok g ∧ g.size = p.n := by
  have hc : p.c.data.size = p.n := Mat.size_data_of_cols hp.c_cols
  cases offer with
  | none => exact ⟨_, rfl, (Vec.size_scale _ _).trans hc⟩
  | some x =>
    refine ⟨_, guarded_eq_ok ⟨(hoffer x rfl).trans hp.q_cols.symm, hc.trans hp.q_rows.symm⟩, ?_⟩
    rw [QuadraticProgram.gradient, Vec.size_addScaled, Mat.size_mulVec, hp.q_rows]

/-! ## The first working set -/

theorem counted_foldl_joinTight {ivs : List (ℕ × α)} {w : WorkingSet} (h : w.Counted) :
    (ivs.foldl (joinTight par p) w).Counted := by
  induction ivs generalizing w with
  | nil => exact h
  | cons iv rest ih =>
    apply ih
    unfold joinTight
    split
    · exact h
    · exact h.insert iv.1

variable (par) in
theorem joinTight_total (hp : p.WellSized) (h : Fitting p s) :
    ∃ s', joinTight? par p s = .ok s' ∧ Fitting p s' := by
  unfold joinTight?
  split
  · exact ⟨s, rfl, h⟩
  · obtain ⟨values, hvalues⟩ := bodies_total hp (fun _ hi => h.others_lt hi) h.size_x
    refine ⟨_, Checked.bind_eq_ok_iff.2 ⟨values, hvalues,
      guarded_eq_ok (hasBounds hp fun _ hi => h.others_lt hi)⟩, ?_⟩
    exact ⟨h.size_x, h.size_multipliers, (count_foldl_joinTight _ _).trans h.count,
      counted_foldl_joinTight h.counted⟩

/-- Constraints are dropped until there are at most as many active rows as variables. -/
theorem Fitting.trim (h : Fitting p s) {fuel : ℕ} (hfuel : s.working.card ≤ fuel)
    (hme : p.me ≤ p.n) :
    ∃ s', trim? p fuel s = .ok s' ∧ Fitting p s' ∧ p.me + s'.working.card ≤ p.n := by
  induction fuel generalizing s with
  | zero => exact ⟨s, rfl, h, by omega⟩
  | succ fuel ih =>
    unfold trim?
    split
    · next hmany =>
      obtain ⟨s₁, hshrink, h₁, hcard⟩ := h.shrink hmany.2
      obtain ⟨s', htrim, h', hfew⟩ := ih h₁ (by omega)
      exact ⟨s', Checked.bind_eq_ok_iff.2 ⟨s₁, hshrink, htrim⟩, h', hfew⟩
    · exact ⟨s, rfl, h, by omega⟩

theorem rows_factor {f : Cholesky α} {a l : Mat α} (hl : (f.compute a).factor = some l) :
    l.rows = a.rows := by
  have key : ∀ (threshold : α) (js : List ℕ) (b : Mat α),
      (Cholesky.columns threshold js b).matrix.rows = b.rows := by
    intro threshold js
    induction js with
    | nil => exact fun _ => rfl
    | cons j rest ih =>
      intro b
      unfold Cholesky.columns
      dsimp only
      split
      · exact ih _
      · rfl
  unfold Cholesky.compute at hl
  dsimp only at hl
  split at hl
  · obtain rfl := Option.some.inj hl
    exact (key _ _ _).trans (Mat.rows_toGeneral a)
  · cases hl

theorem cacheMinimizer_total (hp : p.WellSized) {f : Cholesky α}
    (hcholesky : s.cholesky = f.compute p.q) :
    ∃ minimizer, cacheMinimizer? p s = .ok { s with minimizer } := by
  unfold cacheMinimizer?
  split
  · next hsolvable =>
    obtain ⟨l, hl⟩ := Option.isSome_iff_exists.1 hsolvable
    have hfactor : (f.compute p.q).factor = some l := hcholesky ▸ hl
    have hrows : p.c.data.size = l.rows := by
      rw [Mat.size_data_of_cols hp.c_cols, rows_factor hfactor, hp.q_rows]
      rfl
    have hsolve : s.cholesky.solveVec? p.c.data = .ok (Cholesky.substitute l p.c.data) := by
      refine Checked.bind_eq_ok_iff.2 ⟨l, ?_, guarded_eq_ok hrows⟩
      rw [Cholesky.factor?, hl]
    exact ⟨_, Checked.bind_eq_ok_iff.2 ⟨_, hsolve, rfl⟩⟩
  · exact ⟨none, rfl⟩

variable (par) in
/-- The preparation of a feasible point succeeds and leaves at most as many active rows as there are
variables. -/
theorem prepare_total (hp : p.WellSized) (hme : p.me ≤ p.n) (h : Fitting p s) {f : Cholesky α}
    (hcholesky : s.cholesky = f.compute p.q) :
    ∃ s', prepare? par p s = .ok s' ∧ Fitting p s' ∧
      p.me + s'.working.members.length ≤ p.n := by
  obtain ⟨s₁, hjoin, h₁⟩ := joinTight_total par hp h
  obtain ⟨s₂, htrim, h₂, hfew⟩ := h₁.trim le_rfl hme
  have hshrunk := shrunk_of_trim htrim
  have hsame : s₂.cholesky = f.compute p.q := by
    obtain ⟨working, rfl, -⟩ := joinTight_cases hjoin
    exact hshrunk.cholesky.trans hcholesky
  have hclear : clearOthers? p s₂ = .ok (clearOthers p s₂) := by
    refine guarded_eq_ok fun i hi => ?_
    have := h₂.others_lt hi
    rw [h₂.size_multipliers]
    omega
  obtain ⟨minimizer, hcache⟩ := cacheMinimizer_total (s := clearOthers p s₂) hp hsame
  refine ⟨_, Checked.bind_eq_ok_iff.2 ⟨s₁, hjoin, Checked.bind_eq_ok_iff.2 ⟨s₂, htrim,
    Checked.bind_eq_ok_iff.2 ⟨_, hclear, hcache⟩⟩⟩, ⟨h₂.size_x, ?_, h₂.count, h₂.counted⟩, ?_⟩
  · exact (size_foldl_setIfInBounds _ _ _ _).trans h₂.size_multipliers
  · show p.me + s₂.working.members.length ≤ p.n
    rw [← h₂.counted]
    exact hfew

/-! ## The search -/

/-- The bounds of the linear program for a starting point are not negative once rows have changed
their sign. -/
def HasSignedBounds (p : QuadraticProgram α) : Prop :=
  ∀ r < p.me + p.mi, 0 ≤ (signedRows (startMatrix p) (p.be.above p.bi)).b.get r 0

/-- Where there is room for the standard form, only its tableau remains to be made. -/
theorem startTableau_eq (hp : p.WellSized) {offer : Option (Vec α)}
    (hoffer : ∀ x ∈ offer, x.size = p.n)
    (hform : StandardForm.Fits α (p.me + p.mi) (p.n + p.n + p.mi)) :
    ∃ g, startTableau? p offer =
      Tableau.ofStandardForm? (signedRows (startMatrix p) (p.be.above p.bi)).a
        (signedRows (startMatrix p) (p.be.above p.bi)).b (startCost p g) := by
  obtain ⟨g, hg, hsize⟩ := startGradient_total hp hoffer
  have hdata : HasStartData p g := ⟨hsize.ge, Or.inr hp.ae_cols.ge, Or.inr hp.ai_cols.ge⟩
  have hbounds : Memory.above? p.be p.bi = .ok (p.be.above p.bi) := by
    rw [Memory.above?, Memory.inRoom?_eq]
    · exact guarded_eq_ok (hp.be_cols.trans hp.bi_cols.symm)
    · rw [hp.be_rows, hp.bi_rows, hp.be_cols]
      exact hform.2.1
  have hrows : signedRows? (startMatrix p) (p.be.above p.bi) =
      .ok (signedRows (startMatrix p) (p.be.above p.bi)) :=
    signedRows?_eq_ok (size_bounds hp) (Or.inl rfl)
  refine ⟨g, ?_⟩
  simp only [startTableau?, hg, require_eq_ok hform, require_eq_ok hdata, hbounds, hrows, bind,
    Except.bind]

theorem startTableau_total (hp : p.WellSized) (hsigned : HasSignedBounds p) (hroom : StartFits p)
    {offer : Option (Vec α)} (hoffer : ∀ x ∈ offer, x.size = p.n) :
    ∃ c, startTableau? p offer =
      .ok (Tableau.ofStandardForm (signedRows (startMatrix p) (p.be.above p.bi)).a
        (signedRows (startMatrix p) (p.be.above p.bi)).b c) := by
  obtain ⟨g, hstart⟩ := startTableau_eq hp hoffer hroom.1
  exact ⟨_, hstart.trans (Tableau.ofStandardForm?_eq_ok hroom.2 (size_bounds hp) rfl hsigned)⟩

theorem startTableau_refused (hp : p.WellSized) (hroom : ¬ StartFits p) {offer : Option (Vec α)}
    (hoffer : ∀ x ∈ offer, x.size = p.n) : startTableau? p offer = .error .tooLarge := by
  by_cases hform : StandardForm.Fits α (p.me + p.mi) (p.n + p.n + p.mi)
  · obtain ⟨g, hstart⟩ := startTableau_eq hp hoffer hform
    exact hstart.trans (Tableau.ofStandardForm?_refused (fun htableau => hroom ⟨hform, htableau⟩)
      (size_bounds hp) rfl)
  · obtain ⟨g, hg, -⟩ := startGradient_total hp hoffer
    rw [startTableau?, hg, require, if_neg hform]
    rfl

theorem searchByProgram_total (hp : p.WellSized) (hsigned : HasSignedBounds p)
    (hroom : StartFits p) (h : Fitting p s) {offer : Option (Vec α)}
    (hoffer : ∀ x ∈ offer, x.size = p.n) :
    ∃ found, searchByProgram? par p s offer = .ok found ∧ Fitting p found.state ∧
      found.state.cholesky = s.cholesky := by
  obtain ⟨c, hstart⟩ := startTableau_total hp hsigned hroom hoffer
  have hplaces : p.n ≤ s.x.size ∧ (p.mi = 0 ∨ p.me + p.mi ≤ s.multipliers.size) :=
    ⟨h.size_x.ge, Or.inr h.size_multipliers.ge⟩
  rw [searchByProgram?, hstart]
  simp only [bind, Except.bind]
  split
  · refine ⟨_, by rw [require_eq_ok hplaces]; rfl, ⟨?_, ?_, h.count, h.counted⟩, rfl⟩
    · exact (Array.size_mapIdx ..).trans h.size_x
    · exact (Array.size_mapIdx ..).trans h.size_multipliers
  · exact ⟨_, rfl, h, rfl⟩

theorem searchAnew_total (hp : p.WellSized) (hsigned : HasSignedBounds p)
    (hroom : p.isConstrained = true → StartFits p) (h : Fitting p s) {offer : Option (Vec α)}
    (hoffer : ∀ x ∈ offer, x.size = p.n) :
    ∃ found, searchAnew? par p s offer = .ok found ∧ Fitting p found.state ∧
      found.state.cholesky = s.cholesky := by
  unfold searchAnew?
  split
  · next hconstrained => exact searchByProgram_total hp hsigned (hroom hconstrained) h hoffer
  · exact ⟨_, rfl, ⟨Vec.size_zeros p.n, h.size_multipliers, h.count, h.counted⟩, rfl⟩

/-- A search that is offered a point takes it if it passes the test and begins anew otherwise. -/
theorem search_eq {x : Vec α} {accepted : Bool} (hsize : x.size = s.x.size)
    (haccepted : isFeasible? par p x = .ok accepted) :
    search? par p s (some x) =
      if accepted then .ok ⟨.feasible, { s with x }, []⟩
      else searchAnew? par p { s with x } (some x) := by
  have hcopy : Vec.copyTo? x s.x = .ok x := guarded_eq_ok hsize
  unfold search?
  simp only [bind, Except.bind, hcopy, haccepted]
  rfl

/-- The linear program for a starting point is run: there are constraints, and no point is offered
that satisfies them. -/
def NeedsSearch (par : Params α) (p : QuadraticProgram α) (offer : Option (Vec α)) : Prop :=
  p.isConstrained = true ∧ ∀ x ∈ offer, isFeasible? par p x = .ok false

variable (par) in
/-- A search comes to an end if there is room for the linear program that it may need, and what it
leaves fits the program. -/
theorem search_total (hp : p.WellSized) (hsigned : HasSignedBounds p) (h : Fitting p s)
    {offer : Option (Vec α)} (hroom : NeedsSearch par p offer → StartFits p)
    (hoffer : ∀ x ∈ offer, x.size = p.n) :
    ∃ found, search? par p s offer = .ok found ∧ Fitting p found.state ∧
      found.state.cholesky = s.cholesky := by
  cases offer with
  | none =>
    exact searchAnew_total hp hsigned (fun hc => hroom ⟨hc, fun _ hx => nomatch hx⟩) h hoffer
  | some k =>
    have hk : k.size = p.n := hoffer k rfl
    have hfit : Fitting p { s with x := k } := ⟨hk, h.size_multipliers, h.count, h.counted⟩
    obtain ⟨accepted, haccepted⟩ := isFeasible_total par hp hk
    rw [search_eq (hk.trans h.size_x.symm) haccepted]
    cases accepted with
    | true => exact ⟨_, rfl, hfit, rfl⟩
    | false =>
      refine searchAnew_total hp hsigned (fun hc => hroom ⟨hc, fun x hx => ?_⟩) hfit hoffer
      obtain rfl := Option.some.inj hx
      exact haccepted

variable (par) in
theorem search_refused (hp : p.WellSized) (hx : s.x.size = p.n) {offer : Option (Vec α)}
    (hneeded : NeedsSearch par p offer) (hroom : ¬ StartFits p)
    (hoffer : ∀ x ∈ offer, x.size = p.n) : search? par p s offer = .error .tooLarge := by
  have hanew : ∀ s' : State α, searchAnew? par p s' offer = .error .tooLarge := by
    intro s'
    rw [searchAnew?, if_pos hneeded.1, searchByProgram?, startTableau_refused hp hroom hoffer]
    rfl
  cases offer with
  | none => exact hanew s
  | some k =>
    rw [search_eq ((hoffer k rfl).trans hx.symm) (hneeded.2 k rfl), if_neg Bool.false_ne_true]
    exact hanew _

/-- A search that finds no point has run the linear program, and its status is that of the run. -/
theorem search_fails {found : Search α} {offer : Option (Vec α)}
    (h : search? par p s offer = .ok found) (hfound : found.status ≠ .feasible) :
    ∃ t, startTableau? p offer = .ok t ∧
      ((t.solve par).1.status.isFeasible || (t.solve par).1.status = .unbounded) = false ∧
      found.status = if (t.solve par).1.status = .failed then .failed else .infeasible := by
  -- The search begins anew without an offered point as well as after one that is rejected.
  have hanew : ∀ s' : State α, searchAnew? par p s' offer = .ok found →
      ∃ t, startTableau? p offer = .ok t ∧
        ((t.solve par).1.status.isFeasible || (t.solve par).1.status = .unbounded) = false ∧
        found.status = if (t.solve par).1.status = .failed then .failed else .infeasible := by
    intro s' h
    unfold searchAnew? at h
    split at h
    · obtain ⟨t, ht, h⟩ := Checked.bind_eq_ok_iff.1 h
      dsimp only at h
      split at h
      · obtain ⟨_, -, h⟩ := Checked.bind_eq_ok_iff.1 h
        obtain rfl := Except.ok.inj h
        exact absurd rfl hfound
      · next hnone =>
        obtain rfl := Except.ok.inj h
        exact ⟨t, ht, Bool.eq_false_of_not_eq_true hnone, rfl⟩
    · obtain rfl := Except.ok.inj h
      exact absurd rfl hfound
  unfold search? at h
  split at h
  · exact hanew _ h
  · obtain ⟨x, hcopy, h⟩ := Checked.bind_eq_ok_iff.1 h
    obtain ⟨-, rfl⟩ := guarded_eq_ok_iff.1 hcopy
    obtain ⟨accepted, -, h⟩ := Checked.bind_eq_ok_iff.1 h
    split at h
    · obtain rfl := Except.ok.inj h
      exact absurd rfl hfound
    · exact hanew _ h

/-! ## The start -/

omit [Scalar α] in
theorem usableOffer_eq_some {k : Solution α} (hk : k.status.isApproximate = true)
    (hsize : k.x.size = p.n) : usableOffer p (some k) = some k.x := by
  simp [usableOffer, hk, hsize]

omit [Scalar α] in
theorem size_usableOffer {offer : Option (Solution α)} {x : Vec α}
    (hx : x ∈ usableOffer p offer) : x.size = p.n := by
  unfold usableOffer at hx
  split at hx
  · split at hx
    · next hk =>
      obtain rfl := Option.some.inj hx
      simpa using (Bool.and_eq_true_iff.1 hk).2
    · cases hx
  · cases hx

variable (par) in
/-- The search for a start and the preparation of what it finds are not refused if there is room for
the linear program that the search may need. -/
theorem initialise_fits (hp : p.WellSized) (hsigned : HasSignedBounds p) (hme : p.me ≤ p.n)
    (offer : Option (Solution α)) (hroom : NeedsSearch par p (usableOffer p offer) → StartFits p)
    (hx : s.x.size = p.n) (hl : s.multipliers.size = p.me + p.mi) (hw : s.working.count = p.mi) :
    ∃ stage, initialise? par p offer s = .ok stage ∧ Fitting p stage.state ∧
      (stage.state.status = .feasible → p.me + stage.state.working.members.length ≤ p.n) := by
  have hcholesky : s.cholesky.compute? p.q = .ok (s.cholesky.compute p.q) :=
    guarded_eq_ok (hp.q_rows.trans hp.q_cols.symm)
  have hfit : Fitting p
      { s with cholesky := s.cholesky.compute p.q, working := s.working.clear } :=
    ⟨hx, hl, s.working.count_clear.trans hw, WorkingSet.counted_empty _⟩
  obtain ⟨found, hfound, hfit', hsame⟩ :=
    search_total par hp hsigned hfit hroom fun x hx => size_usableOffer hx
  by_cases hfeasible : found.status = .feasible
  · obtain ⟨s', hprepare, hfits, hfew⟩ := prepare_total par
      (s := { found.state with status := .feasible }) hp hme
      ⟨hfit'.size_x, hfit'.size_multipliers, hfit'.count, hfit'.counted⟩ hsame
    have hstage : initialise? par p offer s =
        .ok ⟨s', found.trace ++ (found.state.moveTo .feasible).trace ++
          [.note (.initialSet s'.working)]⟩ := by
      refine Checked.bind_eq_ok_iff.2 ⟨_, hcholesky,
        Checked.bind_eq_ok_iff.2 ⟨found, hfound, ?_⟩⟩
      rw [if_pos hfeasible]
      exact Checked.bind_eq_ok_iff.2 ⟨s', hprepare, rfl⟩
    exact ⟨_, hstage, hfits, fun _ => hfew⟩
  · have hstage : initialise? par p offer s =
        .ok ⟨{ found.state with x := p.origin, status := found.status }, found.trace ++
          (State.moveTo { found.state with x := p.origin } found.status).trace⟩ := by
      refine Checked.bind_eq_ok_iff.2 ⟨_, hcholesky,
        Checked.bind_eq_ok_iff.2 ⟨found, hfound, ?_⟩⟩
      rw [if_neg hfeasible]
      rfl
    exact ⟨_, hstage, ⟨Vec.size_zeros p.n, hfit'.size_multipliers, hfit'.count, hfit'.counted⟩,
      fun hstatus => absurd hstatus hfeasible⟩

/-- Without room for the linear program a start that needs it is refused. -/
theorem initialise_refused (hp : p.WellSized) {offer : Option (Solution α)} (hx : s.x.size = p.n)
    (hneeded : NeedsSearch par p (usableOffer p offer)) (hroom : ¬ StartFits p) :
    initialise? par p offer s = .error .tooLarge := by
  have hcholesky : s.cholesky.compute? p.q = .ok (s.cholesky.compute p.q) :=
    guarded_eq_ok (hp.q_rows.trans hp.q_cols.symm)
  have hsearch := search_refused par (s := { s with
    cholesky := s.cholesky.compute p.q, working := s.working.clear }) hp hx hneeded hroom
    fun x hx => size_usableOffer hx
  rw [initialise?, hcholesky]
  simp only [bind, Except.bind, hsearch]

/-- An offered point that passes the test is adopted as it is, and the linear program is not run. -/
theorem initialise_accepts {k : Solution α} (hk : k.status.isApproximate = true)
    (hsize : k.x.size = p.n) (haccepted : isFeasible? par p k.x = .ok true) (hx : s.x.size = p.n)
    {stage : Stage α} (h : initialise? par p (some k) s = .ok stage) :
    stage.state.status = .feasible ∧ stage.state.x = k.x ∧
      stage.trace = Trace.transition s.status .feasible ++
        [.note (.initialSet stage.state.working)] := by
  obtain ⟨found, hfound, hend⟩ := initialise_step h
  rw [usableOffer_eq_some hk hsize, search_eq (s := { s with
    cholesky := s.cholesky.compute p.q, working := s.working.clear }) (hsize.trans hx.symm)
    haccepted, if_pos rfl] at hfound
  obtain rfl := Except.ok.inj hfound
  rcases hend with ⟨-, s', hprepare, rfl⟩ | ⟨hfailure, -⟩
  · have hsame := samePoint_of_prepare hprepare
    exact ⟨hsame.status, hsame.x, rfl⟩
  · cases hfailure

/-- Without constraints and without an offer the origin is the start. -/
theorem initialise_unconstrained (hfree : p.isConstrained = false) {stage : Stage α}
    (h : initialise? par p none s = .ok stage) :
    stage.state.status = .feasible ∧ stage.state.x = p.origin := by
  obtain ⟨found, hfound, hend⟩ := initialise_cases h
  have horigin := hfound.symm.trans (if_neg (ne_true_of_eq_false hfree))
  obtain rfl := Except.ok.inj horigin
  rcases hend with ⟨-, hprepare⟩ | ⟨hfailure, -, hstatus⟩
  · have hsame := samePoint_of_prepare hprepare
    exact ⟨hsame.status, hsame.x⟩
  · rw [hstatus] at hfailure
    cases hfailure

end Total

variable {K : Type} [Field K] [LinearOrder K] [IsStrictOrderedRing K] [Exact K]
variable {par : Params K} {p : QuadraticProgram K} {s : State K}

/-! ## Verdicts of the search -/

/-- A search that fails has made as many pivots as it may without leaving the first phase. -/
theorem failed_of_search (hp : p.WellSized) {found : Search K} {offer : Option (Vec K)}
    (h : search? par p s offer = .ok found) (hfound : found.status = .failed) :
    ∃ t, startTableau? p offer = .ok t ∧ (t.solve par).1.phase = .one ∧
      (t.solve par).1.iterations = par.maxIter := by
  obtain ⟨t, ht, -, hstatus⟩ := search_fails h (by rw [hfound]; exact fun h => nomatch h)
  obtain ⟨a, b, c, rfl, -, -⟩ := startTableau_spec hp ht
  refine ⟨_, ht, ?_⟩
  rw [hfound] at hstatus
  split at hstatus
  · next hfailed => exact Tableau.solve_failed hfailed
  · cases hstatus

/-- A search that reports that there is no point is right, or the linear program overlooked a row or
stalled. -/
theorem infeasible_of_search (hpar : par.ProperRatios) (hε : 0 ≤ (Scalar.epsilon : K))
    (hmax : (Scalar.epsilon : K) < Scalar.maxValue) (hp : p.WellSized) {found : Search K}
    {offer : Option (Vec K)} (hratios : StartRatiosBelowMax par p offer)
    (h : search? par p s offer = .ok found) (hfound : found.status = .infeasible) :
    (¬ ∃ x, p.IsFeasible x) ∨ ∃ t, startTableau? p offer = .ok t ∧
      ∃ t' ∈ Tableau.tested par par.maxIter t, t'.phase = .one ∧
        (t'.Overlooks par ∨ t'.Stalls par) := by
  obtain ⟨t, ht, hnone, hstatus⟩ := search_fails h (by rw [hfound]; exact fun h => nomatch h)
  replace hratios := hratios t ht
  obtain ⟨a, b, c, rfl, hnonneg, hiff⟩ := startTableau_spec hp ht
  have hfinal : ((Tableau.ofStandardForm a b c).solve par).1.status = .infeasible := by
    rcases Tableau.solve_status par a b c with hsome | hinfeasible | hfailed
    · exact absurd (hnone.symm.trans hsome) Bool.false_ne_true
    · exact hinfeasible
    · rw [hfound, if_pos hfailed] at hstatus
      cases hstatus
  rcases Tableau.solve_infeasible hpar hε hmax hnonneg hratios hfinal with hempty | hbad
  · refine Or.inl fun hx => ?_
    obtain ⟨z, hz⟩ := hiff.2 hx
    exact hempty z hz
  · exact Or.inr ⟨_, ht, hbad⟩

/-! ## The start -/

/-- What the status after the search for a start says about the state and the program. -/
def Decides (par : Params K) (p : QuadraticProgram K) (offer : Option (Vec K)) (s : State K) :
    Prop :=
  match s.status with
  | .feasible => Consistent p s ∧ p.me + s.working.members.length ≤ p.n
  | .infeasible => s.x = p.origin ∧ ¬ ∃ x, p.IsFeasible x
  | .failed => s.x = p.origin ∧ ∃ t, startTableau? p offer = .ok t ∧
      (t.solve par).1.phase = .one ∧ (t.solve par).1.iterations = par.maxIter
  | .unexplored | .valid | .approximate | .optimal | .unbounded => False

omit [IsStrictOrderedRing K] in
theorem startFits_exact (p : QuadraticProgram K) : StartFits p :=
  ⟨StandardForm.fits_exact _ _, Tableau.fits_exact _ _⟩

theorem hasSignedBounds (hp : p.WellSized) : HasSignedBounds p := fun _ hr =>
  get_signedRows_b_nonneg (shape_bounds hp) hr

variable (par) in
/-- The search for a start and the preparation of what it finds are not refused. -/
theorem initialise_total (hp : p.WellSized) (hme : p.me ≤ p.n) (offer : Option (Solution K))
    (hx : s.x.size = p.n) (hl : s.multipliers.size = p.me + p.mi) (hw : s.working.count = p.mi) :
    ∃ stage, initialise? par p offer s = .ok stage ∧
      (stage.state.status = .feasible → p.me + stage.state.working.members.length ≤ p.n) := by
  obtain ⟨stage, hstage, -, hfew⟩ :=
    initialise_fits par hp (hasSignedBounds hp) hme offer (fun _ => startFits_exact p) hx hl hw
  exact ⟨stage, hstage, hfew⟩

/-- An offered point that serves is adopted as it is, and the linear program is not run. -/
theorem initialise_adopts (hp : p.WellSized) (hslack : par.slack.IsExact) {k : Solution K}
    (hk : k.status.isApproximate = true) (hsize : k.x.size = p.n)
    (hfeasible : p.IsFeasible k.x.entry) (hx : s.x.size = p.n) {stage : Stage K}
    (h : initialise? par p (some k) s = .ok stage) :
    stage.state.status = .feasible ∧ stage.state.x = k.x ∧
      stage.trace = Trace.transition s.status .feasible ++
        [.note (.initialSet stage.state.working)] := by
  obtain ⟨accepted, haccepted⟩ := isFeasible_total par hp hsize
  rw [(isFeasible_iff hslack haccepted).2 hfeasible] at haccepted
  exact initialise_accepts hk hsize haccepted hx h

end ActiveSet

namespace QuadraticProgram

open ActiveSet

variable {K : Type} [Field K] [LinearOrder K] [IsStrictOrderedRing K] [Exact K]

/-- On a program that passed its checks the start decides whether the constraints can be satisfied.
It ends feasible, at a point with a tight working set that leaves no more active rows than there are
variables; or infeasible, and no point satisfies the constraints; or it has failed, and the linear
program made as many pivots as it may without leaving its first phase. A feasible point that is
offered is adopted unchanged. -/
theorem initialise_decides (par : Params K) (p : QuadraticProgram K) (offer : Option (Solution K))
    (status : Status) (hp : p.IsBuilt) (hcheck : p.check par.zeroThreshold = .ok ())
    (hpar : par.ExactRatios) (hslack : par.slack.IsExact) (hε : (Scalar.epsilon : K) = 0)
    (hmax : 0 < (Scalar.maxValue : K))
    (hratios : StartRatiosBelowMax par p (usableOffer p offer)) :
    ∃ stage, initialise? par p offer { State.init p par.zeroThreshold with status } = .ok stage ∧
      Decides par p (usableOffer p offer) stage.state ∧
      ∀ k, offer = some k → k.status.isApproximate = true → k.x.size = p.n →
        p.IsFeasible k.x.entry → stage.state.status = .feasible ∧ stage.state.x = k.x ∧
          stage.trace = Trace.transition status .feasible ++
            [.note (.initialSet stage.state.working)] := by
  have hsized := hp.wellSized hcheck
  obtain ⟨stage, hstage, hfew⟩ := initialise_total par
    (s := { State.init p par.zeroThreshold with status }) hsized (hsized.me_le_n hcheck) offer
    (Vec.size_zeros p.n) (Vec.size_zeros _) (WorkingSet.count_empty p.mi)
  refine ⟨stage, hstage, ?_, ?_⟩
  · obtain ⟨found, hsearch, ⟨-, hprepare⟩ | ⟨hfailure, hx, hstatus⟩⟩ :=
      initialise_cases hstage
    · have hstatus : stage.state.status = .feasible := (samePoint_of_prepare hprepare).status
      rw [Decides, hstatus]
      exact ⟨consistent_of_initialise hpar hslack hε hsized (Vec.size_zeros p.n) rfl hstage
        (by rw [hstatus]; rfl), hfew hstatus⟩
    · -- No point was found, so the status is the one that the linear program ended with.
      have hfound : found.status ≠ .feasible := by
        intro hfeasible
        rw [hstatus, hfeasible] at hfailure
        cases hfailure
      obtain ⟨t, -, -, hkind⟩ := search_fails hsearch hfound
      split at hkind
      · rw [Decides, hstatus, hkind]
        exact ⟨hx, failed_of_search hsized hsearch hkind⟩
      · rw [Decides, hstatus, hkind]
        refine ⟨hx, ?_⟩
        rcases infeasible_of_search hpar.proper hε.ge (hε ▸ hmax) hsized hratios hsearch hkind with
          hempty | ⟨t, -, t', -, -, hover | hstalls⟩
        · exact hempty
        · exact absurd hover (Tableau.not_overlooks_of_exact hpar)
        · exact absurd hstalls (Tableau.not_stalls_of_exact hpar)
  · rintro k rfl hk hsize hfeasible
    exact initialise_adopts hsized hslack hk hsize hfeasible (Vec.size_zeros p.n) hstage

/-- Without an offer the start finds a point of one interval and none of the other one. The upper
end of the first interval is adopted when it is offered, and the inequality that is tight there
joins. -/
theorem initialise_decides_sample :
    letI := Exact.rational 1000
    (∃ stage, initialise? intervalParams (intervalSample 3) none
        (State.init (intervalSample 3) 0) = .ok stage ∧ stage.state.status = .feasible ∧
        Decides intervalParams (intervalSample 3) none stage.state) ∧
      (∃ stage, initialise? intervalParams (intervalSample 1) none
        (State.init (intervalSample 1) 0) = .ok stage ∧ stage.state.status = .infeasible ∧
        Decides intervalParams (intervalSample 1) none stage.state) ∧
      ∃ stage, initialise? intervalParams (intervalSample 3) (some intervalOffer)
        (State.init (intervalSample 3) 0) = .ok stage ∧ stage.state.status = .feasible ∧
        stage.state.x = #[3] ∧ stage.state.working.members = [0] ∧
        stage.trace = Trace.transition .unexplored .feasible ++
          [.note (.initialSet stage.state.working)] ∧
        Decides intervalParams (intervalSample 3) (some #[3]) stage.state := by
  let := Exact.rational 1000
  have hexact : intervalParams.ExactRatios := ⟨⟨rfl, rfl⟩, ⟨rfl, rfl⟩⟩
  have hmax : 0 < (Scalar.maxValue : ℚ) := by decide +kernel
  have hrun : ∀ upper status, (intervalSample upper).check 0 = .ok () →
      StartRatiosBelowMax intervalParams (intervalSample upper) none →
      (initialise? intervalParams (intervalSample upper) none
        (State.init (intervalSample upper) 0)).map (fun stage => stage.state.status) = .ok status →
      ∃ stage, initialise? intervalParams (intervalSample upper) none
        (State.init (intervalSample upper) 0) = .ok stage ∧ stage.state.status = status ∧
        Decides intervalParams (intervalSample upper) none stage.state := by
    intro upper status hcheck hratios hstatus
    obtain ⟨stage, hstage, hdecides, -⟩ := initialise_decides intervalParams (intervalSample upper)
      none .unexplored ⟨_, _, _, _, _, _, rfl⟩ hcheck hexact ⟨rfl, rfl⟩ rfl hmax hratios
    rw [show initialise? intervalParams (intervalSample upper) none
      (State.init (intervalSample upper) 0) = .ok stage from hstage] at hstatus ⊢
    exact ⟨stage, rfl, Except.ok.inj hstatus, hdecides⟩
  refine ⟨hrun 3 .feasible rfl (by decide +kernel) (by decide +kernel),
    hrun 1 .infeasible rfl (by decide +kernel) (by decide +kernel), ?_⟩
  have hworking : (initialise? intervalParams (intervalSample 3) (some intervalOffer)
      (State.init (intervalSample 3) 0)).map (fun stage => stage.state.working.members) =
        .ok [0] := by
    decide +kernel
  have hoffered : (intervalSample 3).IsFeasible intervalOffer.x.entry :=
    ⟨fun r hr => absurd hr (Nat.not_lt_zero r), by decide +kernel⟩
  obtain ⟨stage, hstage, hdecides, hadopts⟩ := initialise_decides intervalParams (intervalSample 3)
    (some intervalOffer) .unexplored ⟨_, _, _, _, _, _, rfl⟩ rfl hexact ⟨rfl, rfl⟩ rfl hmax
    (by decide +kernel)
  obtain ⟨hstatus, hx, htrace⟩ := hadopts intervalOffer rfl rfl rfl hoffered
  rw [show initialise? intervalParams (intervalSample 3) (some intervalOffer)
    (State.init (intervalSample 3) 0) = .ok stage from hstage] at hworking ⊢
  exact ⟨stage, rfl, hstatus, hx, Except.ok.inj hworking, htrace, hdecides⟩

end QuadraticProgram

end QuadProg
