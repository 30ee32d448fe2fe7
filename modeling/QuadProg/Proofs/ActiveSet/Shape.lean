import QuadProg.Proofs.ActiveSet.Totality
import QuadProg.Proofs.Lossy

/-!
# The shape of the state

In every state that a run passes through, point, multipliers and working set have the sizes that the
program asks for, and the multipliers outside of the working set are zero. Every operation that
takes an inequality out of the working set clears its multiplier, and every one that writes
multipliers clears the others. Nothing is assumed about the scalars.
-/

namespace QuadProg

namespace ActiveSet

variable {α : Type} [Scalar α]
variable {par : Params α} {p : QuadraticProgram α} {s s' s₀ : State α}

/-- The state fits the program, and the multipliers outside of the working set are zero. -/
structure Shaped (p : QuadraticProgram α) (s : State α) : Prop extends Fitting p s where
  /-- The inequalities are the members of the working set and the others. -/
  covers : (s.working.members ++ s.working.others).Perm (List.range p.mi)
  zero_others : ∀ i ∈ s.working.others, s.multipliers.entry (p.me + i) = 0

/-- The inequality that limited the last step, if there was one, is outside of the working set. -/
def BlockedOutside (s : State α) : Prop := ∀ i, s.blocking = some i → i ∈ s.working.others

theorem Fitting.shaped (h : Fitting p s)
    (hzero : ∀ i ∈ s.working.others, s.multipliers.entry (p.me + i) = 0) : Shaped p s := by
  refine ⟨h, ?_, hzero⟩
  rw [WorkingSet.members, WorkingSet.others, h.count]
  exact List.filter_append_perm _ _

/-- The shape is one of the size of the point, the multipliers and the working set. -/
theorem Shaped.of_eq (h : Shaped p s) (hx : s'.x.size = s.x.size)
    (hl : s'.multipliers = s.multipliers) (hw : s'.working = s.working) : Shaped p s' := by
  refine Fitting.shaped ⟨hx.trans h.size_x, hl ▸ h.size_multipliers, hw ▸ h.count, hw ▸ h.counted⟩
    fun i hi => ?_
  rw [hl]
  exact h.zero_others i (hw ▸ hi)

/-! ## Dropping constraints -/

omit [Scalar α] in
theorem mem_others_of_subset {w w' : WorkingSet} (hcount : w'.count = w.count)
    (hsub : ∀ i, w'.contains i = true → w.contains i = true) {i : ℕ} (hi : i ∈ w.others) :
    i ∈ w'.others := by
  obtain ⟨hlt, hnot⟩ := WorkingSet.mem_others.1 hi
  have hnot' : ¬ w'.contains i = true := fun h => by
    rw [hsub i h] at hnot
    cases hnot
  exact WorkingSet.mem_others.2 ⟨hlt.trans_eq hcount.symm, Bool.eq_false_of_not_eq_true hnot'⟩

theorem Shaped.drop (h : Shaped p s) {i : ℕ} (hi : s.working.contains i = true) :
    Shaped p (s.drop p.me i) := by
  refine (h.toFitting.drop hi).shaped fun j hj => ?_
  have hj : j ∈ (s.working.erase i).others := hj
  rw [WorkingSet.mem_others, WorkingSet.count_erase, WorkingSet.contains_erase] at hj
  show Vec.entry (s.multipliers.setIfInBounds (p.me + i) 0) (p.me + j) = 0
  rw [Vec.entry_setIfInBounds]
  split
  · rfl
  · next hne =>
    refine h.zero_others j (WorkingSet.mem_others.2 ⟨hj.1, ?_⟩)
    by_cases hij : i = j
    · -- The write to the multiplier of `i` is in range, so that `hne` cannot be.
      subst hij
      have hlt : i < p.mi := h.count ▸ hj.1
      exact absurd ⟨rfl, by rw [h.size_multipliers]; omega⟩ hne
    · simpa [hij] using hj.2

theorem Shaped.shrink (h : Shaped p s) (hs : s.shrink? p.me = .ok s') : Shaped p s' := by
  obtain ⟨-, rfl⟩ := guarded_eq_ok_iff.1 hs
  unfold State.shrink
  split
  · next i hi => exact h.drop (WorkingSet.mem_members.1 (heaviest_mem hi))
  · exact h

/-! ## Iterations -/

/-- A step writes the multipliers of the members and clears the others. What limits it is outside of
the working set. -/
theorem Shaped.takeStep (h : Shaped p s) (hb : BlockedOutside s) {t : Target α} {stage : Stage α}
    (hs : takeStep? par p s s.working.members t = .ok stage) :
    Shaped p stage.state ∧ BlockedOutside stage.state := by
  have hsize : (spread p s.working.members t.multipliers s.multipliers).size = p.me + p.mi := by
    refine (size_foldl_setIfInBounds _ _ _ _).trans ?_
    rw [Array.size_mapIdx]
    exact h.size_multipliers
  have hzero : ∀ i ∈ s.working.others,
      (spread p s.working.members t.multipliers s.multipliers).entry (p.me + i) = 0 := by
    intro i hi
    refine entry_spread_of_notMem fun hmem => ?_
    rw [WorkingSet.mem_members, (WorkingSet.mem_others.1 hi).2] at hmem
    cases hmem
  obtain ⟨hx, -, ⟨-, hstate⟩ | ⟨-, stride, hstride, hstate⟩⟩ := takeStep_cases hs
  · rw [hstate]
    exact ⟨Fitting.shaped ⟨h.size_x, hsize, h.count, h.counted⟩ hzero, hb⟩
  · rw [hstate]
    refine ⟨Fitting.shaped ⟨?_, hsize, h.count, h.counted⟩ hzero, fun i hi =>
      mem_of_blocking_eq_some hstride hi⟩
    dsimp only
    split
    · rw [Vec.size_addScaled, h.size_x]
    · exact h.size_x

theorem Shaped.attempted (h : Shaped p s) (hb : BlockedOutside s) (hs : Attempted par p s s') :
    Shaped p s' ∧ BlockedOutside s' := by
  cases hs with
  | stepped outcome target stage solved found step =>
    exact (h.of_eq rfl rfl rfl : Shaped p { s with lu := outcome.lu }).takeStep hb step
  | stuck outcome feasible solved unsolvable empty test => exact ⟨h.of_eq rfl rfl rfl, hb⟩
  | exhausted outcome solved nonempty => exact ⟨h.of_eq rfl rfl rfl, hb⟩

theorem Shaped.dropped (h : Shaped p s) {outcome : Attempt α} (hs : Dropped p s outcome s') :
    Shaped p s' :=
  (h.of_eq rfl rfl rfl : Shaped p { s with lu := outcome.lu }).shrink hs.shrink

omit [Scalar α] in
theorem BlockedOutside.shrunk (h : BlockedOutside s) (hs : Shrunk s s') : BlockedOutside s' :=
  fun i hi => mem_others_of_subset hs.count hs.contains (h i (hs.blocking ▸ hi))

theorem Shaped.iterated (h : Shaped p s) {moved : Stage α} (hs : iterate? par p s = .ok moved) :
    Shaped p moved.state ∧ BlockedOutside moved.state := by
  have hunblocked : Shaped p { s with blocking := none } ∧
      BlockedOutside { s with blocking := none } := ⟨h.of_eq rfl rfl rfl, fun _ hi => nomatch hi⟩
  obtain ⟨s', ⟨hshaped, hblocked⟩, -, hend⟩ :=
    attempt_induction (fun s => Shaped p s ∧ BlockedOutside s)
      (fun _ _ _ hs hdropped => ⟨hs.1.dropped hdropped, hs.2.shrunk hdropped.shrunk⟩) hunblocked hs
  exact hshaped.attempted hblocked hend

/-! ## Exchanges -/

theorem Shaped.exchanged (h : Shaped p s) {goesOn : Bool} (hs : Exchanged par p s goesOn s') :
    Shaped p s' := by
  cases hs with
  | finished settled => exact h.of_eq rfl rfl rfl
  | joined i joins =>
    refine Fitting.shaped ⟨h.size_x, h.size_multipliers, (s.working.count_insert i).trans h.count,
      h.counted.insert i⟩ fun j hj => h.zero_others j ?_
    refine mem_others_of_subset (s.working.count_insert i).symm (fun k hk => ?_) hj
    rw [WorkingSet.contains_insert, hk]
    rfl
  | left i stays leaves =>
    have hmember := WorkingSet.mem_members.1 (Selection.mem_of_choice_least leaves).1
    exact (h.drop hmember).of_eq rfl rfl rfl

/-! ## The start -/

/-- A search keeps the sizes, and the multipliers as well if it finds no point. -/
theorem Fitting.searchAnew (h : Fitting p s) {offer : Option (Vec α)} {found : Search α}
    (hs : searchAnew? par p s offer = .ok found) :
    Fitting p found.state ∧
      (found.status ≠ .feasible → found.state.multipliers = s.multipliers) := by
  unfold searchAnew? at hs
  split at hs
  · obtain ⟨t, -, hs⟩ := Checked.bind_eq_ok_iff.1 hs
    dsimp only at hs
    split at hs
    · obtain ⟨-, -, hs⟩ := Checked.bind_eq_ok_iff.1 hs
      obtain rfl := Except.ok.inj hs
      refine ⟨⟨?_, ?_, h.count, h.counted⟩, fun hne => absurd rfl hne⟩
      · exact (Array.size_mapIdx ..).trans h.size_x
      · exact (Array.size_mapIdx ..).trans h.size_multipliers
    · obtain rfl := Except.ok.inj hs
      exact ⟨h, fun _ => rfl⟩
  · obtain rfl := Except.ok.inj hs
    exact ⟨⟨Vec.size_zeros p.n, h.size_multipliers, h.count, h.counted⟩, fun _ => rfl⟩

theorem Fitting.search (h : Fitting p s) {offer : Option (Vec α)}
    (hoffer : ∀ x ∈ offer, x.size = p.n) {found : Search α}
    (hs : search? par p s offer = .ok found) :
    Fitting p found.state ∧
      (found.status ≠ .feasible → found.state.multipliers = s.multipliers) := by
  unfold search? at hs
  split at hs
  · exact h.searchAnew hs
  · next k =>
    obtain ⟨x, hx, hs⟩ := Checked.bind_eq_ok_iff.1 hs
    obtain ⟨-, rfl⟩ := guarded_eq_ok_iff.1 hx
    have hfit : Fitting p { s with x := k } :=
      ⟨hoffer k rfl, h.size_multipliers, h.count, h.counted⟩
    obtain ⟨accepted, -, hs⟩ := Checked.bind_eq_ok_iff.1 hs
    split at hs
    · obtain rfl := Except.ok.inj hs
      exact ⟨hfit, fun hne => absurd rfl hne⟩
    · exact hfit.searchAnew hs

/-- Once cleared, an entry stays zero. -/
theorem entry_foldl_clear {me j : ℕ} {others : List ℕ} {l : Vec α}
    (h : l.entry j = 0 ∨ ∃ i ∈ others, me + i = j) :
    Vec.entry (others.foldl (fun l i => l.setIfInBounds (me + i) 0) l) j = 0 := by
  induction others generalizing l with
  | nil => exact h.resolve_right fun ⟨_, hi, _⟩ => nomatch hi
  | cons k rest ih =>
    refine ih ?_
    rw [Vec.entry_setIfInBounds]
    rcases h with hzero | ⟨i, hi, rfl⟩
    · left
      split
      · rfl
      · exact hzero
    · rcases List.mem_cons.1 hi with rfl | hi
      · left
        split
        · rfl
        · next hout =>
          -- Out of range nothing is written, and zero is read.
          have hge : ¬ me + i < l.size := fun hlt => hout ⟨rfl, hlt⟩
          simp [Vec.entry, Array.getD, hge]
      · exact Or.inr ⟨i, hi, rfl⟩

/-- The preparation of a feasible point clears the multipliers outside of the working set. -/
theorem Fitting.prepared (hp : p.WellSized) (hme : p.me ≤ p.n) (h : Fitting p s) {f : Cholesky α}
    (hcholesky : s.cholesky = f.compute p.q) (hs : prepare? par p s = .ok s') :
    Shaped p s' ∧ p.me + s'.working.members.length ≤ p.n := by
  obtain ⟨t, ht, hfit, hfew⟩ := prepare_total par hp hme h hcholesky
  obtain rfl := Except.ok.inj (ht.symm.trans hs)
  refine ⟨hfit.shaped fun i hi => ?_, hfew⟩
  obtain ⟨s₁, -, hs⟩ := Checked.bind_eq_ok_iff.1 hs
  obtain ⟨s₂, -, hs⟩ := Checked.bind_eq_ok_iff.1 hs
  obtain ⟨s₃, hclear, hs⟩ := Checked.bind_eq_ok_iff.1 hs
  obtain ⟨-, rfl⟩ := guarded_eq_ok_iff.1 hclear
  -- The minimizer that is cached last does not touch the multipliers.
  unfold cacheMinimizer? at hs
  split at hs
  · obtain ⟨x, -, hs⟩ := Checked.bind_eq_ok_iff.1 hs
    obtain rfl := Except.ok.inj hs
    exact entry_foldl_clear (Or.inr ⟨i, hi, rfl⟩)
  · obtain rfl := Except.ok.inj hs
    exact entry_foldl_clear (Or.inr ⟨i, hi, rfl⟩)

theorem shaped_start (par : Params α) (p : QuadraticProgram α) : Shaped p (start par p).state :=
  Fitting.shaped ⟨Vec.size_zeros p.n, Vec.size_zeros _, WorkingSet.count_empty p.mi,
    WorkingSet.counted_empty p.mi⟩ fun _ _ => Vec.entry_zeros _ _

/-- Whether or not a point is found, the state after the search has its shape, and with a point
there are at most as many active rows as variables. -/
theorem Shaped.initialised (hp : p.WellSized) (hme : p.me ≤ p.n) (h : Shaped p s)
    (hzero : s.multipliers = Vec.zeros (p.me + p.mi)) {offer : Option (Solution α)}
    {stage : Stage α} (hs : initialise? par p offer s = .ok stage) :
    Shaped p stage.state ∧
      (stage.state.status = .feasible → p.me + stage.state.working.members.length ≤ p.n) := by
  have hcleared : Fitting p
      { s with cholesky := s.cholesky.compute p.q, working := s.working.clear } :=
    ⟨h.size_x, h.size_multipliers, s.working.count_clear.trans h.count, WorkingSet.counted_empty _⟩
  obtain ⟨found, hfound, hend⟩ := initialise_step hs
  obtain ⟨hfit, hkept⟩ := hcleared.search (fun x hx => size_usableOffer hx) hfound
  obtain ⟨⟨x, l, hstate⟩, -⟩ := search_state hfound
  rcases hend with ⟨-, s', hprepare, rfl⟩ | ⟨hfailure, rfl⟩
  · have hready : Fitting p { found.state with status := .feasible } :=
      ⟨hfit.size_x, hfit.size_multipliers, hfit.count, hfit.counted⟩
    obtain ⟨hshaped, hfew⟩ := hready.prepared hp hme (f := s.cholesky) (by rw [hstate]) hprepare
    exact ⟨hshaped, fun _ => hfew⟩
  · have hne : found.status ≠ .feasible := fun hfeasible => by
      rw [hfeasible] at hfailure
      cases hfailure
    refine ⟨Fitting.shaped ⟨Vec.size_zeros p.n, hfit.size_multipliers, hfit.count, hfit.counted⟩
      fun i _ => ?_, fun hfeasible => absurd hfeasible hne⟩
    show found.state.multipliers.entry (p.me + i) = 0
    rw [hkept hne, hzero, Vec.entry_zeros]

/-! ## Runs -/

theorem Shaped.counted_iteration (h : Shaped p s) : Shaped p s.counted := h.of_eq rfl rfl rfl

theorem Shaped.reached (h : Shaped p s₀) (hs : Reached par p s₀ s) : Shaped p s := by
  induction hs with
  | start => exact h
  | next _ iterated _ exchanged _ ih =>
    exact (ih.iterated iterated).1.counted_iteration.exchanged (exchange_cases exchanged)

theorem Shaped.ended (h : Shaped p s₀) (hs : Ended par p s₀ s) : Shaped p s := by
  cases hs with
  | limit reached => exact h.reached reached
  | failed reached iterated _ => exact ((h.reached reached).iterated iterated).1.counted_iteration
  | finished reached iterated _ exchanged _ =>
    have hmoved := ((h.reached reached).iterated iterated).1
    exact hmoved.counted_iteration.exchanged (exchange_cases exchanged)

end ActiveSet

namespace QuadraticProgram

open ActiveSet

variable {α : Type} [Scalar α]

/-- In a run on a program that passed its checks every state has its shape: after the start, whether
or not a point is found; after every iteration, also one that fails, where the inequality that
limited the step is outside of the working set; after every exchange; and at the end. A start with a
point has at most as many active rows as there are variables. -/
theorem run_shaped (par : Params α) (p : QuadraticProgram α) (offer : Option (Solution α))
    (hp : p.IsBuilt) (hcheck : p.check par.zeroThreshold = .ok ()) :
    Shaped p (start par p).state ∧
      ∀ stage, initialise? par p offer (start par p).state = .ok stage →
        Shaped p stage.state ∧
        (stage.state.status = .feasible → p.me + stage.state.working.members.length ≤ p.n) ∧
        (stage.state.status.isFeasible = true →
          (∀ s, Reached par p stage.state s → Shaped p s ∧
            ∃ moved, iterate? par p s = .ok moved ∧ Shaped p moved.state ∧
              BlockedOutside moved.state ∧
              ∃ e, exchange? par p moved.state.counted = .ok e ∧ Shaped p e.state) ∧
          ∀ s, Ended par p stage.state s → Shaped p s) ∧
        ∀ out sol, p.solve? par offer = .ok out → out.result = .ok sol →
          ∃ s, Shaped p s ∧ sol.x = s.x ∧ sol.multipliers = some s.multipliers := by
  have hsized := hp.wellSized hcheck
  refine ⟨shaped_start par p, fun stage hstage => ?_⟩
  obtain ⟨hshaped, hfew⟩ :=
    (shaped_start par p).initialised hsized (hsized.me_le_n hcheck) rfl hstage
  refine ⟨hshaped, hfew, fun hfeasible => ⟨fun s hs => ?_, fun s hs => hshaped.ended hs⟩, ?_⟩
  · have hready := (ready_initialise hsized hstage hshaped.toFitting hfeasible).reached hsized hs
    obtain ⟨moved, hmoved, hready'⟩ := hready.iterate_total par hsized
    obtain ⟨e, he, -⟩ := hready'.counted_iteration.exchange_total par hsized
    obtain ⟨hshaped', hblocked⟩ := (hshaped.reached hs).iterated hmoved
    exact ⟨hshaped.reached hs, moved, hmoved, hshaped', hblocked, e, he,
      hshaped'.counted_iteration.exchanged (exchange_cases he)⟩
  · intro out sol hout hsol
    obtain ⟨-, stage', s, value, hstage', hend, rfl⟩ := solution_of_solve hout hsol
    obtain rfl := Except.ok.inj (hstage.symm.trans hstage')
    refine ⟨s, ?_, rfl, rfl⟩
    rcases hend with ⟨-, last, rfl, hloop⟩ | ⟨-, rfl⟩
    · exact hshaped.ended (ended_of_loop .start hloop)
    · exact hshaped

/-- Minimise `x² / 2 - x` subject to `x ≤ 1` and to a second row whose coefficient is no number. -/
def murkySample : QuadraticProgram Lossy :=
  ofData (Lossy.cell (.num 1)) (Lossy.cell (.num 1)) none none
    (some (Lossy.column (.num 1) .nan)) (some (Lossy.column (.num 1) (.num 1)))

/-- Both rows seem to be tight at the start and the first one is dropped. The subproblem of the
second one has no solution, so that it is dropped as well. -/
theorem run_shaped_murkySample :
    ∃ stage, initialise? .standard murkySample none (start .standard murkySample).state =
        .ok stage ∧ stage.state.working.members = [1] ∧ Shaped murkySample stage.state ∧
      murkySample.me + stage.state.working.members.length ≤ murkySample.n ∧
      ∃ moved, iterate? .standard murkySample stage.state = .ok moved ∧
        moved.state.working.members = [] ∧ Shaped murkySample moved.state := by
  have hrun : (do
      let stage ← initialise? .standard murkySample none (start .standard murkySample).state
      let moved ← iterate? .standard murkySample stage.state
      return (stage.state.status, stage.state.working.members, moved.state.working.members)) =
        .ok (.feasible, [1], []) := by decide +kernel
  obtain ⟨stage, hstage, hrun⟩ := Checked.bind_eq_ok_iff.1 hrun
  obtain ⟨moved, hmoved, hrun⟩ := Checked.bind_eq_ok_iff.1 hrun
  simp only [pure, Except.pure, Except.ok.injEq, Prod.mk.injEq] at hrun
  obtain ⟨hstatus, hmembers, hdropped⟩ := hrun
  obtain ⟨hshaped, hfew, hstates, -⟩ := (run_shaped .standard murkySample none
    ⟨_, _, _, _, _, _, rfl⟩ rfl).2 stage hstage
  obtain ⟨-, moved', hmoved', hshaped', -⟩ := (hstates (by rw [hstatus]; rfl)).1 _ .start
  obtain rfl := Except.ok.inj (hmoved.symm.trans hmoved')
  exact ⟨stage, hstage, hmembers, hshaped, hfew hstatus, moved, hmoved, hdropped, hshaped'⟩

end QuadraticProgram

end QuadProg
