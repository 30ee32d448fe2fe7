import QuadProg.Proofs.ActiveSet.Step
import QuadProg.Proofs.Factor.Range

/-!
# No operation of an iteration is refused

Every vector and matrix that an iteration comes across has the size that the program asks for, and
every index lies in range. So each of the checked operations succeeds, and with it each iteration
and each exchange: one that is entered with a state of the right sizes (`Ready`) ends with such a
state. Nothing is assumed about the scalars.
-/

namespace QuadProg

namespace ActiveSet

variable {α : Type} [Scalar α]
variable {par : Params α} {p : QuadraticProgram α} {s : State α} {active : List ℕ} {a b : Mat α}

/-! ## Sizes -/

/-- Point, multipliers and working set have the sizes that the program asks for. -/
structure Fitting (p : QuadraticProgram α) (s : State α) : Prop where
  size_x : s.x.size = p.n
  size_multipliers : s.multipliers.size = p.me + p.mi
  count : s.working.count = p.mi
  counted : s.working.Counted

theorem allRows_total {bounds : Mat α} (values : Vec α) (holds : α → α → Bool) {rows : List ℕ}
    (h : ∀ r ∈ rows, bounds.shape.Contains r 0) :
    ∃ all, QuadraticProgram.allRows? bounds values holds rows = .ok all := by
  induction rows with
  | nil => exact ⟨true, rfl⟩
  | cons r rest ih =>
    obtain ⟨hr, hrest⟩ := List.forall_mem_cons.1 h
    obtain ⟨all, hall⟩ := ih hrest
    have hget : bounds.get? r 0 = .ok (bounds.get r 0) := guarded_eq_ok hr
    by_cases hholds : holds (bounds.get r 0) (values.entry r) = true
    · refine ⟨all, Checked.bind_eq_ok_iff.2 ⟨_, hget, ?_⟩⟩
      rw [if_pos hholds]
      exact hall
    · refine ⟨false, Checked.bind_eq_ok_iff.2 ⟨_, hget, ?_⟩⟩
      rw [if_neg hholds]
      rfl

theorem hasBounds (hp : p.WellSized) {idx : List ℕ} (hidx : ∀ i ∈ idx, i < p.mi) :
    p.HasBounds idx := fun i hi =>
  ⟨(hidx i hi).trans_eq hp.bi_rows.symm, Nat.one_pos.trans_eq hp.bi_cols.symm⟩

variable (par) in
theorem isFeasible_total (hp : p.WellSized) {x : Vec α} (hx : x.size = p.n) :
    ∃ accepted, isFeasible? par p x = .ok accepted := by
  have hbe : ∀ r ∈ List.range p.me, p.be.shape.Contains r 0 := fun r hr =>
    ⟨(List.mem_range.1 hr).trans_eq hp.be_rows.symm, Nat.one_pos.trans_eq hp.be_cols.symm⟩
  have hbi : ∀ i ∈ List.range p.mi, p.bi.shape.Contains i 0 := fun i hi =>
    hasBounds hp (fun _ hi => List.mem_range.1 hi) i hi
  obtain ⟨tight, htight⟩ := allRows_total (p.ae.mulVec x) (fun a b => !par.slack.differ a b) hbe
  obtain ⟨below, hbelow⟩ := allRows_total (p.ai.mulVec x)
    (fun b v => decide (v ≤ b) || !par.slack.differ b v) hbi
  refine ⟨tight && below, Checked.bind_eq_ok_iff.2 ⟨_, guarded_eq_ok (hx.trans hp.ae_cols.symm),
    Checked.bind_eq_ok_iff.2 ⟨tight, htight, Checked.bind_eq_ok_iff.2 ⟨_,
      guarded_eq_ok (hx.trans hp.ai_cols.symm), Checked.bind_eq_ok_iff.2 ⟨below, hbelow, rfl⟩⟩⟩⟩⟩

theorem bodies_total (hp : p.WellSized) {idx : List ℕ} (hidx : ∀ i ∈ idx, i < p.mi) {x : Vec α}
    (hx : x.size = p.n) : ∃ values, p.bodies? idx x = .ok values :=
  ⟨_, Checked.bind_eq_ok_iff.2 ⟨_, guarded_eq_ok (Or.inr hidx),
    guarded_eq_ok (hx.trans hp.ai_cols.symm)⟩⟩

omit [Scalar α] in
theorem Fitting.others_lt (h : Fitting p s) {i : ℕ} (hi : i ∈ s.working.others) : i < p.mi := by
  rw [← h.count]
  exact (WorkingSet.mem_others.1 hi).1

omit [Scalar α] in
theorem Fitting.coversWorking (h : Fitting p s) : s.CoversWorking p.me := by
  intro i hi
  have hlt := WorkingSet.lt_count_of_contains (WorkingSet.mem_members.1 hi)
  rw [h.count] at hlt
  rw [h.size_multipliers]
  omega

theorem heaviest_spec (s : State α) (me : ℕ) (hmembers : s.working.members ≠ []) :
    ∃ i ∈ s.working.members, s.heaviest me = some i := by
  unfold State.heaviest
  cases hlist : s.working.members with
  | nil => exact absurd hlist hmembers
  | cons first rest =>
    -- Whatever has been looked at, the candidate is one of the members looked at, or the first.
    have key : ∀ (l : List ℕ) (best : ℕ × α), best.1 ∈ first :: rest → l ⊆ first :: rest →
        (l.foldl (s.heavier me) best).1 ∈ first :: rest := by
      intro l
      induction l with
      | nil => exact fun _ hbest _ => hbest
      | cons i l ih =>
        intro best hbest hl
        obtain ⟨hi, hl⟩ := List.cons_subset.1 hl
        apply ih _ _ hl
        unfold State.heavier
        dsimp only
        split
        · exact hi
        · exact hbest
    exact ⟨_, key _ (first, 0) List.mem_cons_self (List.Subset.refl _), rfl⟩

theorem heaviest_mem {me i : ℕ} (h : s.heaviest me = some i) : i ∈ s.working.members := by
  by_cases hmembers : s.working.members = []
  · rw [State.heaviest, hmembers] at h
    cases h
  · obtain ⟨j, hj, hheaviest⟩ := heaviest_spec s me hmembers
    rw [hheaviest] at h
    exact Option.some.inj h ▸ hj

theorem Fitting.drop (h : Fitting p s) {i : ℕ} (hi : s.working.contains i = true) :
    Fitting p (s.drop p.me i) :=
  ⟨h.size_x, Array.size_setIfInBounds.trans h.size_multipliers,
    (s.working.count_erase i).trans h.count, (h.counted.erase hi).1⟩

theorem Fitting.shrink (h : Fitting p s) (hpos : 0 < s.working.card) :
    ∃ s', s.shrink? p.me = .ok s' ∧ Fitting p s' ∧ s'.working.card + 1 = s.working.card := by
  have hmembers : s.working.members ≠ [] := by
    intro hnil
    rw [h.counted, hnil] at hpos
    exact absurd hpos (lt_irrefl 0)
  obtain ⟨i, hi, hheaviest⟩ := heaviest_spec s p.me hmembers
  have hmember := WorkingSet.mem_members.1 hi
  refine ⟨s.drop p.me i, ?_, h.drop hmember, (h.counted.erase hmember).2⟩
  rw [State.shrink?, guarded_eq_ok h.coversWorking, State.shrink, hheaviest]

omit [Scalar α] in
theorem size_foldl_setIfInBounds {β : Type} (f : β → ℕ) (g : β → α) (l : List β) (v : Vec α) :
    (l.foldl (fun v b => v.setIfInBounds (f b) (g b)) v).size = v.size := by
  induction l generalizing v with
  | nil => rfl
  | cons b rest ih => rw [List.foldl_cons, ih, Array.size_setIfInBounds]

theorem size_spread (p : QuadraticProgram α) (active : List ℕ) (l all : Vec α) :
    (spread p active l all).size = all.size :=
  (size_foldl_setIfInBounds _ _ _ _).trans Array.size_mapIdx

/-- The state has the sizes that an iteration relies on. -/
structure Ready (p : QuadraticProgram α) (s : State α) : Prop extends Fitting p s where
  factor_rows : ∀ l, s.cholesky.factor = some l → l.rows = p.n
  size_minimizer : ∀ m, s.minimizer = some m → m.size = p.n
  blocking_lt : ∀ i, s.blocking = some i → i < p.mi

omit [Scalar α] in
theorem Ready.members_lt (h : Ready p s) {i : ℕ} (hi : i ∈ s.working.members) : i < p.mi := by
  rw [← h.count]
  exact WorkingSet.lt_count_of_contains (WorkingSet.mem_members.1 hi)

/-! ## Subproblems -/

theorem Ready.solveVec_total (h : Ready p s) (hsolvable : s.cholesky.isSolvable = true) {g : Vec α}
    (hg : g.size = p.n) : ∃ x, s.cholesky.solveVec? g = .ok x ∧ x.size = p.n := by
  obtain ⟨l, hl⟩ := Option.isSome_iff_exists.1 hsolvable
  have hrows := h.factor_rows l hl
  refine ⟨Cholesky.substitute l g, Checked.bind_eq_ok_iff.2 ⟨l, ?_, guarded_eq_ok ?_⟩, ?_⟩
  · rw [Cholesky.factor?, hl]
  · rw [hg, hrows]
  · rw [Cholesky.size_substitute, hrows]

theorem Ready.minimizer_total (h : Ready p s) (hp : p.WellSized)
    (hsolvable : s.cholesky.isSolvable = true) :
    ∃ x, minimizer? p s = .ok x ∧ x.size = p.n := by
  unfold minimizer?
  split
  · next m hm => exact ⟨m, rfl, h.size_minimizer m hm⟩
  · exact h.solveVec_total hsolvable (Mat.size_data_of_cols hp.c_cols)

/-- The active rows and their bounds can be put together. -/
theorem rows_total (hp : p.WellSized) (hactive : ∀ i ∈ active, i < p.mi) :
    ∃ a b, (ActiveRows.ofCount p.me).matrix? p active = .ok a ∧
      (ActiveRows.ofCount p.me).bounds? p active = .ok b ∧
      a.rows = p.me + active.length ∧ a.cols = p.n ∧ b.size = (p.me + active.length, 1) := by
  have hselect : p.ai.select? active = .ok (p.ai.select active) := guarded_eq_ok (Or.inr hactive)
  have hselect' : p.bi.select? active = .ok (p.bi.select active) :=
    guarded_eq_ok (Or.inr fun i hi => (hactive i hi).trans_eq hp.bi_rows.symm)
  unfold ActiveRows.ofCount
  split
  · refine ⟨p.ae.above (p.ai.select active), p.be.above (p.bi.select active),
      Checked.bind_eq_ok_iff.2 ⟨_, hselect, ?_⟩, Checked.bind_eq_ok_iff.2 ⟨_, hselect', ?_⟩, rfl,
      hp.ae_cols, ?_⟩
    · exact guarded_eq_ok (hp.ae_cols.trans hp.ai_cols.symm)
    · exact guarded_eq_ok (hp.be_cols.trans hp.bi_cols.symm)
    · exact Prod.ext (congrArg (· + active.length) hp.be_rows) hp.be_cols
  · next hme =>
    have hlength : active.length = p.me + active.length := by omega
    exact ⟨_, _, Checked.bind_eq_ok_iff.2 ⟨_, hselect, rfl⟩,
      Checked.bind_eq_ok_iff.2 ⟨_, hselect', rfl⟩, hlength, hp.ai_cols,
      Prod.ext hlength hp.bi_cols⟩

theorem Ready.schur_total (h : Ready p s) (hp : p.WellSized)
    (hsolvable : s.cholesky.isSolvable = true) (ha : a.cols = p.n) (hb : b.size = (a.rows, 1)) :
    ∃ attempt, solveBySchur? p s a b = .ok attempt ∧
      ∀ t, attempt.target = some t → t.x.size = p.n ∧ t.multipliers.size = a.rows := by
  obtain ⟨l, hl⟩ := Option.isSome_iff_exists.1 hsolvable
  have hw : s.cholesky.solve? a.transpose =
      .ok (a.transpose.mapColumns (Cholesky.substitute l)) := by
    refine Checked.bind_eq_ok_iff.2 ⟨l, ?_, guarded_eq_ok ?_⟩
    · rw [Cholesky.factor?, hl]
    · exact ha.trans (h.factor_rows l hl).symm
  have hwsize := Mat.size_mapColumns (Cholesky.substitute l) a.transpose
  generalize a.transpose.mapColumns (Cholesky.substitute l) = w at hw hwsize
  have hwrows : a.cols = w.rows := (congrArg Prod.fst hwsize).symm
  have hwcols : a.rows = w.cols := (congrArg Prod.snd hwsize).symm
  have hc : p.c.data.size = p.n := Mat.size_data_of_cols hp.c_cols
  have hbsize : b.data.size = a.rows :=
    (Mat.size_data_of_cols (congrArg Prod.snd hb)).trans (congrArg Prod.fst hb)
  cases hlu : (s.lu.compute (a.mul w)).isSolvable with
  | false =>
    refine ⟨⟨none, s.lu.compute (a.mul w)⟩, Checked.bind_eq_ok_iff.2 ⟨w, hw,
      Checked.bind_eq_ok_iff.2 ⟨_, guarded_eq_ok hwrows,
        Checked.bind_eq_ok_iff.2 ⟨_, guarded_eq_ok hwcols, ?_⟩⟩⟩, ?_⟩
    · rw [if_neg (by simp [hlu])]
      rfl
    · rintro t ⟨⟩
  | true =>
    obtain ⟨free, hfree, hfreesize⟩ := h.minimizer_total hp hsolvable
    have hresidual : (a.transform 1 free (-1) b.data).size = (a.mul w).rows :=
      (Mat.size_transform ..).trans hbsize
    obtain ⟨m, hm, hmsize⟩ := LU.solveVec_total hlu hresidual
    have hmsize : m.size = a.rows := hmsize
    obtain ⟨x, hx, hxsize⟩ := h.solveVec_total hsolvable
      (g := a.transformTranspose (-1) m 1 p.c.data) ((Mat.size_transformTranspose ..).trans hc)
    refine ⟨⟨some ⟨x, m⟩, s.lu.compute (a.mul w)⟩, Checked.bind_eq_ok_iff.2 ⟨w, hw,
      Checked.bind_eq_ok_iff.2 ⟨_, guarded_eq_ok hwrows,
        Checked.bind_eq_ok_iff.2 ⟨_, guarded_eq_ok hwcols, ?_⟩⟩⟩, ?_⟩
    · rw [if_pos hlu]
      exact Checked.bind_eq_ok_iff.2 ⟨free, hfree, Checked.bind_eq_ok_iff.2 ⟨_,
        guarded_eq_ok ⟨hfreesize.trans ha.symm, hbsize⟩, Checked.bind_eq_ok_iff.2 ⟨m, hm,
          Checked.bind_eq_ok_iff.2 ⟨_, guarded_eq_ok ⟨hmsize, hc.trans ha.symm⟩,
            Checked.bind_eq_ok_iff.2 ⟨x, hx, rfl⟩⟩⟩⟩⟩
    · rintro t ⟨⟩
      exact ⟨hxsize, hmsize⟩

theorem size_kktSystem (hp : p.WellSized) (hb : b.size = (a.rows, 1)) :
    (kktSystem p.q a p.c b).matrix.size = (p.n + a.rows, p.n + a.rows) ∧
      (kktSystem p.q a p.c b).rhs.size = (p.n + a.rows, 1) := by
  unfold kktSystem
  split
  · next hzero =>
    rw [hzero]
    exact ⟨Prod.ext ((Mat.rows_toGeneral _).trans hp.q_rows)
      ((Mat.cols_toGeneral _).trans hp.q_cols),
      Prod.ext (Mat.rows_toGeneral _) ((Mat.cols_toGeneral _).trans hp.c_cols)⟩
  · exact ⟨Prod.ext (congrArg (· + a.rows) hp.q_rows) (congrArg (· + a.rows) hp.q_cols),
      Prod.ext (congrArg (p.n + ·) (congrArg Prod.fst hb)) hp.c_cols⟩

theorem kkt_total (hp : p.WellSized) (lu : LU α) (ha : a.cols = p.n) (hb : b.size = (a.rows, 1)) :
    ∃ attempt, solveByKkt? p lu a b = .ok attempt ∧
      ∀ t, attempt.target = some t → t.x.size = p.n ∧ t.multipliers.size = a.rows := by
  have hsystem : kktSystem? p.q a p.c b = .ok (kktSystem p.q a p.c b) := by
    refine guarded_eq_ok ⟨?_, ?_, hb⟩
    · rw [ha]
      exact Prod.ext hp.q_rows hp.q_cols
    · rw [ha]
      exact Prod.ext rfl hp.c_cols
  have hsizes := size_kktSystem hp hb
  generalize kktSystem p.q a p.c b = system at hsystem hsizes
  obtain ⟨hmatrix, hrhs⟩ := hsizes
  have hrows : system.matrix.rows = p.n + a.rows := congrArg Prod.fst hmatrix
  have hsquare : system.matrix.rows = system.matrix.cols :=
    hrows.trans (congrArg Prod.snd hmatrix).symm
  have hrhssize : system.rhs.data.size = system.matrix.rows :=
    (Mat.size_data_of_cols (congrArg Prod.snd hrhs)).trans
      ((congrArg Prod.fst hrhs).trans hrows.symm)
  cases hlu : (lu.compute system.matrix).isSolvable with
  | false =>
    refine ⟨⟨none, lu.compute system.matrix⟩, Checked.bind_eq_ok_iff.2 ⟨system, hsystem,
      Checked.bind_eq_ok_iff.2 ⟨_, guarded_eq_ok hsquare, ?_⟩⟩, fun t ht => nomatch ht⟩
    rw [if_neg (by simp [hlu])]
    rfl
  | true =>
    obtain ⟨z, hz, hzsize⟩ := LU.solveVec_total hlu hrhssize
    rw [hrows] at hzsize
    refine ⟨⟨some ⟨z.extract 0 p.n, z.extract p.n z.size⟩, lu.compute system.matrix⟩,
      Checked.bind_eq_ok_iff.2 ⟨system, hsystem,
        Checked.bind_eq_ok_iff.2 ⟨_, guarded_eq_ok hsquare, ?_⟩⟩, ?_⟩
    · rw [if_pos hlu]
      exact Checked.bind_eq_ok_iff.2 ⟨z, hz, rfl⟩
    · rintro t ⟨⟩
      simp [hzsize]

/-- A subproblem is not refused. Its solution has as many multipliers as there are active rows. -/
theorem Ready.subproblem_total (h : Ready p s) (hp : p.WellSized)
    (hactive : ∀ i ∈ active, i < p.mi) :
    ∃ attempt, subproblem? p s active = .ok attempt ∧
      ∀ t, attempt.target = some t →
        t.x.size = p.n ∧ t.multipliers.size = p.me + active.length := by
  obtain ⟨a, b, ha, hb, hrows, hcols, hbsize⟩ := rows_total hp hactive
  rw [← hrows] at hbsize ⊢
  obtain ⟨direct, hdirect, hdirectsize⟩ := kkt_total hp s.lu hcols hbsize
  unfold subproblem?
  dsimp only
  rw [ha, hb]
  simp only [bind, Except.bind]
  split
  · next hroute =>
    have hsolvable := (Bool.and_eq_true_iff.1 hroute).2
    split
    · next hzero =>
      obtain ⟨x, hx, hxsize⟩ := h.solveVec_total hsolvable (Mat.size_data_of_cols hp.c_cols)
      refine ⟨⟨some ⟨x, #[]⟩, s.lu⟩, by rw [hx]; rfl, ?_⟩
      rintro t ⟨⟩
      refine ⟨hxsize, ?_⟩
      rw [hrows]
      unfold ActiveRows.ofCount at hzero
      split at hzero
      · exact hzero.symm
      · have hlength : active.length = 0 := hzero
        simp
        omega
    · obtain ⟨first, hfirst, hfirstsize⟩ := h.schur_total hp hsolvable hcols hbsize
      rw [hfirst]
      dsimp only
      split
      · exact ⟨first, rfl, hfirstsize⟩
      · exact kkt_total hp first.lu hcols hbsize
  · exact ⟨direct, hdirect, hdirectsize⟩

/-! ## Steps -/

variable (par) in
theorem stride_total (hp : p.WellSized) {x dx : Vec α} (hx : x.size = p.n) (hdx : dx.size = p.n)
    (length : α) {others : List ℕ} (hothers : ∀ i ∈ others, i < p.mi) :
    ∃ stride, stride? par p x dx length others = .ok stride := by
  unfold stride?
  split
  · exact ⟨_, rfl⟩
  · obtain ⟨values, hvalues⟩ := bodies_total hp hothers hx
    obtain ⟨growths, hgrowths⟩ := bodies_total hp hothers hdx
    exact ⟨_, Checked.bind_eq_ok_iff.2 ⟨_, Checked.bind_eq_ok_iff.2 ⟨values, hvalues,
      guarded_eq_ok (hasBounds hp hothers)⟩, Checked.bind_eq_ok_iff.2 ⟨growths, hgrowths, rfl⟩⟩⟩

variable (par) in
/-- A step towards a target is taken, and it leaves a state of the same sizes. -/
theorem Ready.takeStep_total (h : Ready p s) (hp : p.WellSized) (hactive : ∀ i ∈ active, i < p.mi)
    {t : Target α} (ht : t.x.size = p.n) :
    ∃ stage, takeStep? par p s active t = .ok stage ∧ Ready p stage.state := by
  have hdx : Vec.addScaled? (-1) s.x t.x = .ok (Vec.addScaled (-1) s.x t.x) :=
    guarded_eq_ok (h.size_x.trans ht.symm)
  have hdxsize := (Vec.size_addScaled (-1) s.x t.x).trans ht
  obtain ⟨moved, hmove, hready⟩ : ∃ moved, move? par p s t.x = .ok moved ∧
      Ready p moved.state := by
    unfold move?
    rw [hdx]
    simp only [bind, Except.bind]
    split
    · exact ⟨_, rfl, ⟨h.size_x, h.size_multipliers, h.count, h.counted⟩, h.factor_rows,
        h.size_minimizer, h.blocking_lt⟩
    · have hothers : ∀ i ∈ s.working.others, i < p.mi := fun _ hi => h.others_lt hi
      obtain ⟨stride, hstride⟩ := stride_total par hp h.size_x hdxsize
        (Vec.addScaled (-1) s.x t.x).norm hothers
      have hblocking : ∀ i, stride.blocking = some i → i < p.mi := fun i hi =>
        h.others_lt (mem_of_blocking_eq_some hstride hi)
      have hpart : Vec.addScaled? stride.length (Vec.addScaled (-1) s.x t.x) s.x =
          .ok (Vec.addScaled stride.length (Vec.addScaled (-1) s.x t.x) s.x) :=
        guarded_eq_ok (hdxsize.trans h.size_x.symm)
      rw [hstride]
      dsimp only
      split
      · rw [hpart]
        exact ⟨_, rfl, ⟨(Vec.size_addScaled ..).trans h.size_x, h.size_multipliers, h.count,
          h.counted⟩, h.factor_rows, h.size_minimizer, hblocking⟩
      · exact ⟨_, rfl, ⟨h.size_x, h.size_multipliers, h.count, h.counted⟩, h.factor_rows,
          h.size_minimizer, hblocking⟩
  have hsize := hready.size_multipliers
  have hadopt : adopt? p active t.multipliers moved.state = .ok { moved.state with
      multipliers := spread p active t.multipliers moved.state.multipliers } := by
    refine guarded_eq_ok ⟨by omega, fun i hi => ?_⟩
    have := hactive i hi
    omega
  refine ⟨_, Checked.bind_eq_ok_iff.2 ⟨moved, hmove,
    Checked.bind_eq_ok_iff.2 ⟨_, hadopt, rfl⟩⟩, ⟨hready.size_x, ?_, hready.count, hready.counted⟩,
    hready.factor_rows, hready.size_minimizer, hready.blocking_lt⟩
  exact (size_spread ..).trans hsize

/-! ## Iterations -/

omit [Scalar α] in
theorem Ready.unblocked (h : Ready p s) : Ready p { s with blocking := none } :=
  ⟨⟨h.size_x, h.size_multipliers, h.count, h.counted⟩, h.factor_rows, h.size_minimizer,
    fun _ hi => nomatch hi⟩

omit [Scalar α] in
theorem Ready.withStatus (h : Ready p s) (lu : LU α) (status : Status) :
    Ready p { s with lu, status } :=
  ⟨⟨h.size_x, h.size_multipliers, h.count, h.counted⟩, h.factor_rows, h.size_minimizer,
    h.blocking_lt⟩

theorem Ready.shrink_total (h : Ready p s) (hmembers : s.working.members ≠ []) :
    ∃ s', s.shrink? p.me = .ok s' ∧ Ready p s' := by
  have hpos : 0 < s.working.card := by
    rw [h.counted]
    exact List.length_pos_iff.2 hmembers
  obtain ⟨s', hshrink, hfitting, -⟩ := h.toFitting.shrink hpos
  have hshrunk := shrunk_of_shrink hshrink
  exact ⟨s', hshrink, hfitting, fun l hl => h.factor_rows l (hshrunk.cholesky ▸ hl),
    fun m hm => h.size_minimizer m (hshrunk.minimizer ▸ hm),
    fun i hi => h.blocking_lt i (hshrunk.blocking ▸ hi)⟩

/-- An iteration succeeds if it does so with one retry less, should it come to that. -/
theorem Ready.attempt_step (h : Ready p s) (hp : p.WellSized) {retries : ℕ}
    (hretry : ∀ k, retries = k + 1 → ∀ s' : State α, Ready p s' →
      ∃ stage, attempt? par p k s' = .ok stage ∧ Ready p stage.state) :
    ∃ stage, attempt? par p retries s = .ok stage ∧ Ready p stage.state := by
  obtain ⟨outcome, hsolve, hsize⟩ := h.subproblem_total hp fun _ hi => h.members_lt hi
  unfold attempt?
  dsimp only
  rw [hsolve]
  simp only [bind, Except.bind]
  split
  · next target htarget =>
    exact (h.withStatus outcome.lu s.status).takeStep_total par hp (fun _ hi => h.members_lt hi)
      (hsize target htarget).1
  · split
    · obtain ⟨accepted, haccepted⟩ := isFeasible_total par hp h.size_x
      rw [haccepted]
      exact ⟨_, rfl, h.withStatus _ _⟩
    · next hnonempty =>
      rcases retries with _ | k
      · exact ⟨_, rfl, h.withStatus _ _⟩
      · have hmembers : s.working.members ≠ [] := fun hnil => hnonempty (List.isEmpty_iff.2 hnil)
        obtain ⟨s', hshrink, hready⟩ := (h.withStatus outcome.lu s.status).shrink_total hmembers
        obtain ⟨stage, hstage, hfinal⟩ := hretry k rfl s' hready
        dsimp only
        rw [hshrink]
        dsimp only
        rw [hstage]
        exact ⟨_, rfl, hfinal⟩

variable (par) in
theorem Ready.attempt_total (h : Ready p s) (hp : p.WellSized) (retries : ℕ) :
    ∃ stage, attempt? par p retries s = .ok stage ∧ Ready p stage.state := by
  induction retries generalizing s with
  | zero => exact h.attempt_step hp fun k hk => nomatch hk
  | succ retries ih =>
    refine h.attempt_step hp fun k hk s' hready => ?_
    obtain rfl := Nat.succ.inj hk
    exact ih hready

variable (par) in
/-- An iteration is not refused, and it leaves a state that the next one can start from. -/
theorem Ready.iterate_total (h : Ready p s) (hp : p.WellSized) :
    ∃ moved, iterate? par p s = .ok moved ∧ Ready p moved.state := by
  exact h.unblocked.attempt_total par hp par.maxRetry

/-! ## Exchanges -/

theorem mostViolated_total (hp : p.WellSized) (h : Fitting p s) :
    ∃ join, mostViolated? par p s = .ok join ∧ ∀ i, join = some i → i < p.mi := by
  have hothers : ∀ i ∈ s.working.others, i < p.mi := fun _ hi => h.others_lt hi
  obtain ⟨values, hvalues⟩ := bodies_total hp hothers h.size_x
  refine ⟨_, Checked.bind_eq_ok_iff.2 ⟨_, Checked.bind_eq_ok_iff.2 ⟨values, hvalues,
    guarded_eq_ok (hasBounds hp hothers)⟩, rfl⟩, fun i hi => ?_⟩
  obtain ⟨k, hk, rfl⟩ := Option.map_eq_some_iff.1 hi
  exact hothers _ (getD_mem (List.mem_range.1 (Selection.mem_of_choice_least hk).1))

variable (par) in
theorem Ready.joining_total (h : Ready p s) (hp : p.WellSized) :
    ∃ join, joining? par p s = .ok join ∧ ∀ i, join = some i → i < p.mi := by
  unfold joining?
  split
  · next i hblocking =>
    have hi := h.blocking_lt i hblocking
    have hcontains : s.working.contains? i = .ok (s.working.contains i) :=
      guarded_eq_ok (hi.trans_eq h.count.symm)
    rw [hcontains]
    simp only [bind, Except.bind]
    split
    · exact mostViolated_total hp h.toFitting
    · exact ⟨some i, rfl, fun j hj => Option.some.inj hj ▸ hi⟩
  · exact mostViolated_total hp h.toFitting

variable (par) in
theorem Ready.exchange_total (h : Ready p s) (hp : p.WellSized) :
    ∃ e, exchange? par p s = .ok e ∧ Ready p e.state := by
  have hfinish : Ready p { s with status := .optimal } := h.withStatus s.lu .optimal
  unfold exchange?
  split
  · exact ⟨_, rfl, hfinish⟩
  · obtain ⟨join, hjoin, hlt⟩ := h.joining_total par hp
    rw [hjoin]
    simp only [bind, Except.bind]
    split
    · next i =>
      have hinsert : s.working.insert? i = .ok (s.working.insert i) :=
        guarded_eq_ok ((hlt i rfl).trans_eq h.count.symm)
      rw [hinsert]
      exact ⟨_, rfl, ⟨h.size_x, h.size_multipliers, (s.working.count_insert i).trans h.count,
        h.counted.insert i⟩, h.factor_rows, h.size_minimizer, h.blocking_lt⟩
    · have hleave : leaving? par p s = .ok (leaving par p s) := guarded_eq_ok h.coversWorking
      rw [hleave]
      dsimp only
      split
      · next i hi =>
        have hmember : s.working.contains i = true :=
          WorkingSet.mem_members.1 (Selection.mem_of_choice_least hi).1
        have hdrop := h.toFitting.drop hmember
        exact ⟨_, rfl, ⟨hdrop.size_x, hdrop.size_multipliers, hdrop.count, hdrop.counted⟩,
          h.factor_rows, h.size_minimizer, h.blocking_lt⟩
      · exact ⟨_, rfl, hfinish⟩

/-! ## Runs -/

omit [Scalar α] in
theorem Ready.counted_iteration (h : Ready p s) : Ready p s.counted :=
  ⟨⟨h.size_x, h.size_multipliers, h.count, h.counted⟩, h.factor_rows, h.size_minimizer,
    h.blocking_lt⟩

variable (par) in
theorem Ready.loop_total (h : Ready p s) (hp : p.WellSized) (fuel : ℕ) :
    ∃ stage, loop? par p fuel s = .ok stage ∧ Ready p stage.state := by
  induction fuel generalizing s with
  | zero => exact ⟨_, rfl, h⟩
  | succ fuel ih =>
    obtain ⟨moved, hmoved, hready⟩ := h.iterate_total par hp
    obtain ⟨e, hexchange, hready'⟩ := hready.counted_iteration.exchange_total par hp
    obtain ⟨rest, hrest, hfinal⟩ := ih hready'
    have hexchange : exchange? par p
        { moved.state with iterations := moved.state.iterations + 1 } = .ok e := hexchange
    unfold loop?
    rw [hmoved]
    simp only [bind, Except.bind]
    split
    · exact ⟨_, rfl, hready.counted_iteration⟩
    · rw [hexchange]
      dsimp only
      split
      · rw [hrest]
        exact ⟨_, rfl, hfinal⟩
      · exact ⟨_, rfl, hready'⟩

theorem Ready.reached {s₀ : State α} (h : Ready p s₀) (hp : p.WellSized)
    (hs : Reached par p s₀ s) : Ready p s := by
  induction hs with
  | start => exact h
  | next _ iterated _ exchanged _ ih =>
    obtain ⟨moved, hmoved, hready⟩ := ih.iterate_total par hp
    obtain rfl := Except.ok.inj (hmoved.symm.trans iterated)
    obtain ⟨e, he, hready⟩ := hready.counted_iteration.exchange_total par hp
    obtain rfl := Except.ok.inj (he.symm.trans exchanged)
    exact hready

theorem solution_total (hp : p.WellSized) (hx : s.x.size = p.n) :
    ∃ sol, solution? p s = .ok sol :=
  ⟨_, Checked.bind_eq_ok_iff.2 ⟨_, guarded_eq_ok ⟨hx.trans hp.q_cols.symm, hx.trans hp.q_rows.symm,
    (Mat.size_data_of_cols hp.c_cols).trans hx.symm⟩, rfl⟩⟩

theorem factor_of_solveVec {f : Cholesky α} {g x : Vec α} (h : f.solveVec? g = .ok x) :
    ∃ l, f.factor = some l ∧ x.size = l.rows := by
  obtain ⟨l, hl, h⟩ := Checked.bind_eq_ok_iff.1 h
  obtain ⟨-, rfl⟩ := guarded_eq_ok_iff.1 h
  refine ⟨l, ?_, Cholesky.size_substitute l g⟩
  unfold Cholesky.factor? at hl
  split at hl
  · next hf => rw [hf, Except.ok.inj hl]
  · cases hl

end ActiveSet

end QuadProg
