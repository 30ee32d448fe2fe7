import QuadProg.Proofs.ActiveSet.Feasibility

/-!
# What an optimum is certified by

If the quadratic term has a Cholesky factor, a run that ends at an optimum has solved the subproblem
of its last working set, and the solution certifies the point. Without tolerances the point is the
only minimum of the program.
-/

namespace QuadProg

open Finset

namespace ActiveSet

variable {K : Type} [Field K] [LinearOrder K] [Exact K]

/-- The point `y` with the multipliers `l` satisfies the optimality conditions, up to the tolerance
of multipliers, and `x` is that point or not told apart from it. -/
structure IsCertified (par : Params K) (p : QuadraticProgram K) (x l y : Vec K) : Prop where
  size_x : x.size = p.n
  size : y.size = p.n
  balance : p.Balances l.entry y.entry
  equality : ∀ r < p.me, p.ae.lhs r y.entry = p.be.get r 0
  complementary : ∀ i < p.mi, l.entry (p.me + i) = 0 ∨ p.ai.lhs i y.entry = p.bound i
  sign : ∀ i < p.mi, 0 ≤ l.entry (p.me + i) ∨ |l.entry (p.me + i)| ≤ par.solution.absolute
  inequality : ∀ i < p.mi, p.bound i < p.ai.lhs i x.entry →
    p.ai.lhs i y.entry = p.bound i ∨ par.slack.differ (p.bound i) (p.ai.lhs i x.entry) = false
  near : x = y ∨ par.solution.isSmall x.norm (Vec.addScaled (-1) x y).norm = true

variable {par : Params K} {p : QuadraticProgram K} {s s₀ s' : State K}

/-! ## The last iteration -/

theorem others_eq_nil (hs : Prepared par p s) (hmi : p.mi = 0) : s.working.others = [] := by
  refine List.eq_nil_iff_forall_not_mem.2 fun i hi => ?_
  have hlt := (WorkingSet.mem_others.1 hi).1
  rw [hs.count, hmi] at hlt
  exact Nat.not_lt_zero i hlt

theorem member_or_other (hs : Prepared par p s) {i : ℕ} (hi : i < p.mi) :
    i ∈ s.working.members ∨ i ∈ s.working.others := by
  cases h : s.working.contains i with
  | true => exact Or.inl (WorkingSet.mem_members.2 h)
  | false => exact Or.inr (WorkingSet.mem_others.2 ⟨by rw [hs.count]; exact hi, h⟩)

variable [IsStrictOrderedRing K]

/-- Where nothing is left to exchange the step was not limited, so that it was negligible or led to
its target. -/
theorem near_of_settled {target : Target K} {stage : Stage K} (hs : Prepared par p s)
    (hstep : takeStep? par p s s.working.members target = .ok stage)
    (hsettled : p.mi = 0 ∨ joining? par p stage.state.counted = .ok none) :
    stage.state.working = s.working ∧
    stage.state.multipliers = spread p s.working.members target.multipliers s.multipliers ∧
    stage.state.x.size = target.x.size ∧
    (stage.state.x = target.x ∨ par.solution.isSmall stage.state.x.norm
      (Vec.addScaled (-1) stage.state.x target.x).norm = true) := by
  obtain ⟨hsize, -, ⟨hsmall, hstate⟩ | ⟨-, stride, hstride, hstate⟩⟩ := takeStep_cases hstep
  · rw [hstate]
    exact ⟨rfl, rfl, hsize, Or.inr hsmall⟩
  · have hnone : stride.blocking = none := by
      cases hblocking : stride.blocking with
      | none => rfl
      | some i =>
        have hother := mem_of_blocking_eq_some hstride hblocking
        rcases hsettled with hmi | hjoin
        · rw [others_eq_nil hs hmi] at hother
          cases hother
        · have hcontains := (joining_eq_none hjoin).1 i (by rw [hstate]; exact hblocking)
          have hworking : stage.state.counted.working = s.working := by
            rw [State.counted, hstate]
          rw [hworking, (WorkingSet.mem_others.1 hother).2] at hcontains
          cases hcontains
    have hlength := stride_length_of_blocking_eq_none hstride hnone
    rw [hstate]
    have hx : Vec.addScaled stride.length (Vec.addScaled (-1) s.x target.x) s.x = target.x := by
      rw [hlength]
      exact Vec.addScaled_one_sub hsize
    dsimp only
    rw [hx, if_pos (hlength ▸ zero_lt_one)]
    exact ⟨rfl, rfl, rfl, Or.inl rfl⟩

/-- The target of the last step certifies the point in which the run ends. -/
theorem isCertified_of_step (hs : Prepared par p s) {target : Target K}
    (htarget : SolvesRows p s.working.members target) {stage : Stage K}
    (hstep : takeStep? par p s s.working.members target = .ok stage)
    (hend : Exchanged par p stage.state.counted false s') :
    IsCertified par p s'.x s'.multipliers target.x := by
  obtain ⟨-, ⟨hme, hcovers⟩, -⟩ := takeStep_cases hstep
  cases hend with
  | finished settled =>
    obtain ⟨hworking, hl, hsize, hnear⟩ := near_of_settled hs hstep (settled.imp_right And.left)
    show IsCertified par p stage.state.x stage.state.multipliers target.x
    have htight : ∀ i ∈ s.working.members, p.ai.lhs i target.x.entry = p.bound i := by
      intro i hi
      obtain ⟨k, hk, rfl⟩ := exists_getD_eq hi
      exact htarget.tight k hk
    have houtside : ∀ i ∈ s.working.others, stage.state.multipliers.entry (p.me + i) = 0 := by
      intro i hi
      rw [hl]
      refine entry_spread_of_notMem fun hmem => ?_
      rw [WorkingSet.mem_members, (WorkingSet.mem_others.1 hi).2] at hmem
      cases hmem
    constructor
    case size_x => exact hsize.trans htarget.size_x
    case size => exact htarget.size_x
    case equality => exact htarget.equality
    case near => exact hnear
    case balance =>
      rw [hl]
      exact balances_spread hs.count htarget hme hcovers
    case complementary =>
      intro i hi
      rcases member_or_other hs hi with hmem | hother
      · exact Or.inr (htight i hmem)
      · exact Or.inl (houtside i hother)
    case sign =>
      intro i hi
      rcases member_or_other hs hi with hmem | hother
      · rcases settled with hmi | ⟨-, -, hleaving⟩
        · omega
        · have hmem' : i ∈ stage.state.counted.working.members := by
            rw [State.counted, hworking]
            exact hmem
          rcases sign_of_leaving_eq_none hleaving hmem' with hsign | hzero
          · exact Or.inl hsign
          · exact Or.inr (of_decide_eq_true hzero)
      · exact Or.inl (houtside i hother).ge
    case inequality =>
      intro i hi hviolated
      rcases member_or_other hs hi with hmem | hother
      · exact Or.inl (htight i hmem)
      · rcases settled with hmi | ⟨hjoin, -, -⟩
        · omega
        · refine Or.inr (differ_of_mostViolated_eq_none (joining_eq_none hjoin).2 ?_ hviolated)
          rw [State.counted, hworking]
          exact hother

/-! ## The end of a run -/

section End

variable [ExactRoots K] {offer : Option (Solution K)}

/-- The solution of the last subproblem certifies the point in which the run ends. Only with a flat
direction and an empty working set can there be none. -/
theorem certified_or_flat (hthreshold : par.zeroThreshold = 0) (hp : p.WellSized)
    (hsymm : p.q.IsSymm) (hpsd : p.q.IsPosSemidef) (hcheck : p.check par.zeroThreshold = .ok ())
    {moved : State K} (hs : Prepared par p s) (hattempt : Attempted par p s moved)
    (husable : moved.status.isFailure = false) (hend : Exchanged par p moved.counted false s') :
    (∃ y, IsCertified par p s'.x s'.multipliers y) ∨
      p.HasFlatDirection ∧ s'.working.members = [] := by
  have hremembers := hs.remembers hp hsymm hthreshold.ge
  cases hattempt with
  | stepped outcome target stage solved found step =>
    have htarget := solves_of_subproblem hremembers hp hsymm solved found
    exact Or.inl ⟨target.x, isCertified_of_step (hs.solved solved) htarget step hend⟩
  | stuck outcome feasible solved unsolvable empty test =>
    rw [empty] at solved
    have hsingular := isSingular_of_subproblem hp (hs.threshold.trans hthreshold) solved unsolvable
    have hind := QuadraticProgram.rowsIndependent_of_check hthreshold.ge hcheck
    refine Or.inr ⟨hasFlatDirection_of_isSingular hp hsymm hpsd hind hsingular, ?_⟩
    cases hend with
    | finished settled => exact empty
  | exhausted outcome solved nonempty => cases husable

/-- Without tolerances the certified point satisfies the constraints, and the objective rises away
from it at least by half the quadratic form. -/
theorem IsCertified.objectiveAt_add_le {x l y : Vec K} (h : IsCertified par p x l y)
    (hp : p.WellSized) (hsymm : p.q.IsSymm) (hslack : par.slack.IsExact)
    (hsolution : par.solution.IsExact) :
    p.IsFeasible x.entry ∧ ∀ z, p.IsFeasible z → p.objectiveAt x.entry +
      1 / 2 * p.q.bilin (fun j => z j - x.entry j) (fun j => z j - x.entry j) ≤
        p.objectiveAt z := by
  obtain rfl : x = y := by
    rcases h.near with hsame | hsmall
    · exact hsame
    · rw [Tolerance.isSmall_iff hsolution] at hsmall
      refine Vec.ext_entry (h.size_x.trans h.size.symm) fun i hi => ?_
      have hi : i < y.size := by rw [h.size, ← h.size_x]; exact hi
      have hzero := Vec.entry_eq_zero_of_norm hsmall (i := i) (by rwa [Vec.size_addScaled])
      rw [Vec.entry_addScaled hi] at hzero
      linear_combination -hzero
  have hfeasible : p.IsFeasible x.entry := by
    refine ⟨h.equality, fun i hi => le_of_not_gt fun hviolated => ?_⟩
    rcases h.inequality i hi hviolated with htight | hsame
    · exact hviolated.ne' htight
    · have hdiffer := (Tolerance.differ_iff hslack _ _).2 hviolated.ne
      rw [hsame] at hdiffer
      cases hdiffer
  have hsign : ∀ i < p.mi, 0 ≤ l.entry (p.me + i) := by
    intro i hi
    rcases h.sign i hi with hnonneg | hzero
    · exact hnonneg
    · rw [hsolution.absolute] at hzero
      exact (abs_nonpos_iff.1 hzero).ge
  exact ⟨hfeasible, fun z hz =>
    p.objectiveAt_add_le hp hsymm h.balance hfeasible h.complementary hsign hz⟩

theorem IsCertified.isMinimum {x l y : Vec K} (h : IsCertified par p x l y) (hp : p.WellSized)
    (hsymm : p.q.IsSymm) (hpsd : p.q.IsPosSemidef) (hslack : par.slack.IsExact)
    (hsolution : par.solution.IsExact) : p.IsMinimum x.entry := by
  obtain ⟨hfeasible, hle⟩ := h.objectiveAt_add_le hp hsymm hslack hsolution
  refine ⟨hfeasible, fun z hz => ?_⟩
  have hform := hpsd fun j => z j - x.entry j
  linarith [hle z hz]

/-- If the quadratic term is positive definite, no other feasible point is as good. -/
theorem IsCertified.eq_of_le {x l y : Vec K} (h : IsCertified par p x l y) (hp : p.WellSized)
    (hsymm : p.q.IsSymm) (hpd : p.q.IsPosDef) (hslack : par.slack.IsExact)
    (hsolution : par.solution.IsExact) {z : ℕ → K} (hz : p.IsFeasible z)
    (hobjective : p.objectiveAt z ≤ p.objectiveAt x.entry) : ∀ j < p.n, z j = x.entry j := by
  have hle := (h.objectiveAt_add_le hp hsymm hslack hsolution).2 z hz
  have hform : p.q.bilin (fun j => z j - x.entry j) (fun j => z j - x.entry j) = 0 :=
    le_antisymm (by linarith) (hpd.isPosSemidef _)
  intro j hj
  have hzero := hpd.eq_zero hform j (by rw [hp.q_rows]; exact hj)
  exact sub_eq_zero.1 hzero

end End

end ActiveSet

namespace QuadraticProgram

open ActiveSet

variable {K : Type} [Field K] [LinearOrder K] [IsStrictOrderedRing K] [Exact K] [ExactRoots K]

/-- An optimum of a program whose quadratic term has a Cholesky factor comes with multipliers that
certify it, whatever point was offered; without tolerances it is the only minimum. -/
theorem optimum_certified (par : Params K) (p : QuadraticProgram K) (offer : Option (Solution K))
    (hp : p.IsBuilt) (hsymm : p.q.IsSymm) (hthreshold : par.zeroThreshold = 0)
    (hfactor : ((Cholesky.init par.zeroThreshold).compute p.q).isSolvable = true)
    {out : Outcome K} {sol : Solution K} (hsolve : p.solve? par offer = .ok out)
    (hsol : out.result = .ok sol) (hoptimal : sol.status = .optimal) :
    (∃ l y, sol.multipliers = some l ∧ IsCertified par p sol.x l y) ∧
      (par.slack.IsExact → par.solution.IsExact → p.IsMinimum sol.x.entry ∧
        ∀ z, p.IsFeasible z → p.objectiveAt z ≤ p.objectiveAt sol.x.entry →
          ∀ j < p.n, z j = sol.x.entry j) := by
  obtain ⟨hcheck, stage, s, hstage, hrun, hstatus, hx, hl⟩ := solve_cases hsolve hsol
  have hsized := hp.wellSized hcheck
  have hfeasible : stage.state.status.isFeasible = true := by
    rcases hrun with ⟨hfeasible, -⟩ | ⟨hnot, rfl⟩
    · exact hfeasible
    · rw [← hstatus, hoptimal] at hnot
      cases hnot
  have hend : Ended par p stage.state s := by
    rcases hrun with ⟨-, last, rfl, hloop⟩ | ⟨hnot, -⟩
    · exact ended_of_loop .start hloop
    · rw [hfeasible] at hnot
      cases hnot
  have hprepared := prepared_initialise hstage hfeasible
  have hstart : stage.state.status ≠ .optimal := by
    rw [(status_initialise hstage hfeasible).1]
    exact fun h => by cases h
  obtain ⟨last, moved, hlast, hattempt, husable, hexchanged⟩ :=
    last_iteration hprepared hstart hend (hstatus.symm.trans hoptimal)
  have hpd := (hlast.remembers hsized hsymm hthreshold.ge).isPosDef hsized hsymm
    (by rw [hlast.cholesky]; exact hfactor)
  obtain ⟨y, hy⟩ := (certified_or_flat hthreshold hsized hsymm hpd.isPosSemidef hcheck hlast
    hattempt husable hexchanged).resolve_right fun h => not_hasFlatDirection hsized hpd h.1
  rw [← hx] at hy
  refine ⟨⟨s.multipliers, y, hl, hy⟩, fun hslack hsolution => ?_⟩
  exact ⟨hy.isMinimum hsized hsymm hpd.isPosSemidef hslack hsolution,
    fun z hz hle => hy.eq_of_le hsized hsymm hpd hslack hsolution hz hle⟩

/-- The runs on the samples end at the free minimiser and at the end of the half-line. -/
theorem solve_sample :
    letI := Exact.real 1000
    (∃ out sol, sample.solve? sampleParams (some sampleOffer) = .ok out ∧ out.result = .ok sol ∧
      sol.status = .optimal ∧ sol.x = #[1]) ∧
    ∃ out sol, limitedSample.solve? sampleParams (some sampleOffer) = .ok out ∧
      out.result = .ok sol ∧ sol.status = .optimal ∧ sol.x = #[1 / 2] ∧
      sol.multipliers = some #[1] := by
  let := Exact.real 1000
  have := ExactRoots.real 1000
  have hiter : 2 ≤ sampleParams.maxIter := show 2 ≤ 10 by decide
  constructor
  · obtain ⟨out, sol, hsolve, hsol, hstatus, ⟨-, hx, -⟩ | ⟨hfar, -⟩⟩ :=
      solve_halfLine (q := 4) (c := 4) (a := 1) (b := 3) (x := 0) isExact_sampleParams
        hiter four_pos (by norm_num) (by norm_num) sampleOffer rfl rfl
    · rw [div_self four_ne_zero] at hx
      exact ⟨out, sol, hsolve, hsol, hstatus, hx⟩
    · norm_num at hfar
  · obtain ⟨out, sol, hsolve, hsol, hstatus, ⟨hnear, -⟩ | ⟨-, hx, hl⟩⟩ :=
      solve_halfLine (q := 4) (c := 4) (a := 2) (b := 1) (x := 0) isExact_sampleParams
        hiter four_pos (by norm_num) (by norm_num) sampleOffer rfl rfl
    · norm_num at hnear
    · have hmultiplier : ((4 : ℝ) - 4 * (1 / 2)) / 2 = 1 := by norm_num
      rw [hmultiplier] at hl
      exact ⟨out, sol, hsolve, hsol, hstatus, hx, hl⟩

/-- The inequality of the first sample is not tight at the optimum, that of the second one is, with
a multiplier that is not zero. -/
theorem optimum_certified_sample :
    letI := Exact.real 1000
    (∃ out sol, sample.solve? sampleParams (some sampleOffer) = .ok out ∧ out.result = .ok sol ∧
      sol.status = .optimal ∧ sol.x = #[1] ∧
      (∃ l y, sol.multipliers = some l ∧ IsCertified sampleParams sample sol.x l y) ∧
      sample.IsMinimum sol.x.entry) ∧
    ∃ out sol y, limitedSample.solve? sampleParams (some sampleOffer) = .ok out ∧
      out.result = .ok sol ∧ sol.status = .optimal ∧ sol.x = #[1 / 2] ∧
      sol.multipliers = some #[1] ∧ IsCertified sampleParams limitedSample sol.x #[1] y ∧
      limitedSample.IsMinimum sol.x.entry := by
  let := Exact.real 1000
  have := ExactRoots.real 1000
  obtain ⟨⟨out, sol, hsolve, hsol, hoptimal, hx⟩, out', sol', hsolve', hsol', hoptimal', hx', hl⟩ :=
    solve_sample
  have hfactor : ((Cholesky.init sampleParams.zeroThreshold).compute sample.q).isSolvable = true :=
    Cholesky.isSolvable_single pivot_sample
  constructor
  · obtain ⟨hcertified, hminimum⟩ := optimum_certified sampleParams sample (some sampleOffer)
      isBuilt_halfLine isSymm_halfLine rfl hfactor hsolve hsol hoptimal
    exact ⟨out, sol, hsolve, hsol, hoptimal, hx, hcertified, (hminimum ⟨rfl, rfl⟩ ⟨rfl, rfl⟩).1⟩
  · obtain ⟨⟨l, y, hmultipliers, hcertified⟩, hminimum⟩ := optimum_certified sampleParams
      limitedSample (some sampleOffer) isBuilt_halfLine isSymm_halfLine rfl hfactor hsolve' hsol'
      hoptimal'
    obtain rfl := Option.some.inj (hmultipliers.symm.trans hl)
    exact ⟨out', sol', y, hsolve', hsol', hoptimal', hx', hl, hcertified,
      (hminimum ⟨rfl, rfl⟩ ⟨rfl, rfl⟩).1⟩

end QuadraticProgram

end QuadProg
