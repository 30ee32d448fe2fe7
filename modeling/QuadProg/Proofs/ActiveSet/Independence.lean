import QuadProg.Proofs.ActiveSet.Feasibility
import QuadProg.Proofs.ActiveSet.Totality

/-!
# Independent active rows

Without tolerances and with a positive definite quadratic term, a subproblem has a solution exactly
if its rows are linearly independent. An iteration moves along the active rows, and the inequality
that limits it grows along the way, so it is independent of them and may join; what leaves takes
nothing away. So from the first step on the active rows stay independent, and no iteration has to
drop a constraint.
-/

namespace QuadProg

open Finset

namespace ActiveSet

variable {K : Type} [Field K] [LinearOrder K] [Exact K]
variable {par : Params K} {p : QuadraticProgram K} {s s' : State K} {w : WorkingSet}

/-! ## Rows -/

/-- A row of the program, of its equality constraints or of its inequalities. -/
def row (p : QuadraticProgram K) : ℕ ⊕ ℕ → Fin p.n → K
  | .inl r => fun j => p.ae.get r j
  | .inr i => fun j => p.ai.get i j

/-- The equality constraints and the inequalities of a working set. -/
def activeRows (p : QuadraticProgram K) (w : WorkingSet) : Finset (ℕ ⊕ ℕ) :=
  (range p.me).disjSum w.members.toFinset

/-- The active rows are linearly independent. -/
def Independent (p : QuadraticProgram K) (w : WorkingSet) : Prop :=
  LinearIndepOn K (row p) (activeRows p w : Set (ℕ ⊕ ℕ))

omit [Field K] [LinearOrder K] [Exact K] in
theorem card_activeRows (p : QuadraticProgram K) (w : WorkingSet) :
    (activeRows p w).card = p.me + w.members.length := by
  rw [activeRows, card_disjSum, card_range, List.toFinset_card_of_nodup w.nodup_members]

/-- There are at most as many independent rows as variables. -/
theorem Independent.le (h : Independent p w) : p.me + w.members.length ≤ p.n := by
  have hcard := LinearIndependent.fintype_card_le_finrank h
  rw [Module.finrank_fin_fun] at hcard
  rw [← card_activeRows]
  simpa using hcard

omit [LinearOrder K] [Exact K] in
theorem sum_members (w : WorkingSet) (f : ℕ → K) :
    ∑ i ∈ w.members.toFinset, f i = ∑ k ∈ range w.members.length, f (w.members.getD k 0) := by
  rw [List.sum_toFinset f w.nodup_members]
  generalize w.members = l
  induction l with
  | nil => rfl
  | cons i rest ih =>
    rw [List.map_cons, List.sum_cons, List.length_cons, sum_range_succ', ih, add_comm]
    rfl

/-- A combination of the active rows, summed in the order of the members. -/
theorem sum_activeRows (f : ℕ ⊕ ℕ → K) (j : Fin p.n) :
    (∑ i ∈ activeRows p w, f i • row p i) j = ∑ r ∈ range p.me, p.ae.get r j * f (.inl r) +
      ∑ k ∈ range w.members.length,
        p.ai.get (w.members.getD k 0) j * f (.inr (w.members.getD k 0)) := by
  rw [Finset.sum_apply, activeRows, sum_disjSum,
    sum_members w fun i => (f (.inr i) • row p (.inr i)) j]
  congr 1
  · exact sum_congr rfl fun r _ => mul_comm _ _
  · exact sum_congr rfl fun k _ => mul_comm _ _

/-- Only the trivial combination of independent rows vanishes. -/
theorem independent_iff : Independent p w ↔ ∀ l : ℕ → K,
    (∀ j < p.n, ∑ r ∈ range p.me, p.ae.get r j * l r +
      ∑ k ∈ range w.members.length, p.ai.get (w.members.getD k 0) j * l (p.me + k) = 0) →
    ∀ k < p.me + w.members.length, l k = 0 := by
  rw [Independent, linearIndepOn_finset_iff]
  constructor
  · intro h l hl
    -- The weight of a member is the one at its place in the list.
    let f : ℕ ⊕ ℕ → K := Sum.elim l fun i => l (p.me + w.members.idxOf i)
    have hplace : ∀ k < w.members.length, f (.inr (w.members.getD k 0)) = l (p.me + k) := by
      intro k hk
      rw [List.getD_eq_getElem _ _ hk]
      exact congrArg (fun i => l (p.me + i)) (w.nodup_members.idxOf_getElem k hk)
    have hsum : ∑ i ∈ activeRows p w, f i • row p i = 0 := by
      funext j
      refine (sum_activeRows f j).trans (Eq.trans ?_ (hl j j.isLt))
      exact congrArg (_ + ·) (sum_congr rfl fun k hk => by rw [hplace k (mem_range.1 hk)])
    intro k hk
    rcases Nat.lt_or_ge k p.me with hlt | hge
    · exact h f hsum (.inl k) (inl_mem_disjSum.2 (mem_range.2 hlt))
    · obtain ⟨i, rfl⟩ := Nat.exists_eq_add_of_le hge
      have hi : i < w.members.length := by omega
      rw [← hplace i hi]
      exact h f hsum _ (inr_mem_disjSum.2 (List.mem_toFinset.2 (getD_mem hi)))
  · intro h f hf
    let l : ℕ → K := fun k =>
      if k < p.me then f (.inl k) else f (.inr (w.members.getD (k - p.me) 0))
    have hequality : ∀ r < p.me, l r = f (.inl r) := fun r hr => if_pos hr
    have hmember : ∀ k, l (p.me + k) = f (.inr (w.members.getD k 0)) := by
      intro k
      refine (if_neg (by omega)).trans ?_
      rw [Nat.add_sub_cancel_left]
    have hzero := h l fun j hj => by
      have hrow := (sum_activeRows f ⟨j, hj⟩).symm.trans (congrFun hf ⟨j, hj⟩)
      simp only [hmember]
      refine Eq.trans ?_ hrow
      exact congrArg (· + _) (sum_congr rfl fun r hr => by rw [hequality r (mem_range.1 hr)])
    rintro (r | i) hi
    · have hr : r < p.me := mem_range.1 (inl_mem_disjSum.1 hi)
      rw [← hequality r hr]
      exact hzero r (by omega)
    · obtain ⟨k, hk, rfl⟩ := exists_getD_eq (List.mem_toFinset.1 (inr_mem_disjSum.1 hi))
      rw [← hmember k]
      exact hzero (p.me + k) (by omega)

/-! ## Joining and leaving -/

theorem Independent.of_contains {w' : WorkingSet} (h : Independent p w)
    (hsub : ∀ i, w'.contains i = true → w.contains i = true) : Independent p w' := by
  refine LinearIndepOn.mono h ?_
  rintro (r | i) hi
  · exact inl_mem_disjSum.2 (inl_mem_disjSum.1 hi)
  · have hi := WorkingSet.mem_members.1 (List.mem_toFinset.1 (inr_mem_disjSum.1 hi))
    exact inr_mem_disjSum.2 (List.mem_toFinset.2 (WorkingSet.mem_members.2 (hsub i hi)))

/-- The product of a row with a point. -/
def pairing (p : QuadraticProgram K) (x : ℕ → K) : (Fin p.n → K) →ₗ[K] K :=
  Fintype.linearCombination K fun j : Fin p.n => x j

theorem pairing_equality (hp : p.WellSized) (x : ℕ → K) (r : ℕ) :
    pairing p x (row p (.inl r)) = p.ae.lhs r x := by
  rw [pairing, Fintype.linearCombination_apply, Mat.lhs, hp.ae_cols]
  exact Fin.sum_univ_eq_sum_range (fun j => p.ae.get r j * x j) p.n

theorem pairing_inequality (hp : p.WellSized) (x : ℕ → K) (i : ℕ) :
    pairing p x (row p (.inr i)) = p.ai.lhs i x := by
  rw [pairing, Fintype.linearCombination_apply, Mat.lhs, hp.ai_cols]
  exact Fin.sum_univ_eq_sum_range (fun j => p.ai.get i j * x j) p.n

/-- A row joins that is not orthogonal to a direction to which all active rows are. -/
theorem Independent.insert (hp : p.WellSized) (h : Independent p w) {i : ℕ} {x : ℕ → K}
    (hequality : ∀ r < p.me, p.ae.lhs r x = 0)
    (hmember : ∀ k, w.contains k = true → p.ai.lhs k x = 0) (hi : p.ai.lhs i x ≠ 0) :
    Independent p (w.insert i) := by
  have hspan : row p (.inr i) ∉ Submodule.span K (row p '' activeRows p w) := by
    intro hmem
    have hle : Submodule.span K (row p '' activeRows p w) ≤ (pairing p x).ker := by
      rw [Submodule.span_le]
      rintro _ ⟨r | k, hk, rfl⟩
      · have hr : r < p.me := mem_range.1 (inl_mem_disjSum.1 hk)
        exact (pairing_equality hp x r).trans (hequality r hr)
      · have hk := WorkingSet.mem_members.1 (List.mem_toFinset.1 (inr_mem_disjSum.1 hk))
        exact (pairing_inequality hp x k).trans (hmember k hk)
    exact hi ((pairing_inequality hp x i).symm.trans (hle hmem))
  refine LinearIndepOn.mono (LinearIndepOn.insert h hspan) ?_
  rintro (r | k) hk
  · exact Or.inr (inl_mem_disjSum.2 (inl_mem_disjSum.1 hk))
  · have hk := WorkingSet.mem_members.1 (List.mem_toFinset.1 (inr_mem_disjSum.1 hk))
    rw [WorkingSet.contains_insert, Bool.or_eq_true, Bool.and_eq_true] at hk
    rcases hk with hk | ⟨hki, -⟩
    · exact Or.inr (inr_mem_disjSum.2 (List.mem_toFinset.2 (WorkingSet.mem_members.2 hk)))
    · exact Or.inl (congrArg Sum.inr (of_decide_eq_true hki).symm)

/-! ## Subproblems -/

section Subproblem

variable [IsStrictOrderedRing K] {attempt : Attempt K} {t : Target K}

omit [IsStrictOrderedRing K] in
/-- Over independent rows the bordered system of a positive definite program is regular. -/
theorem Independent.not_isSingular (hp : p.WellSized) (hpd : p.q.IsPosDef)
    (h : Independent p w) : ¬ IsSingular p w.members :=
  not_isSingular_of_isPosDef hp hpd (independent_iff.1 h)

/-- The rows of which the Schur complement has factors are independent: a combination of them that
vanishes is mapped to zero by the complement. -/
theorem eq_zero_of_schur (hs : Remembers p s) (hp : p.WellSized) (hsymm : p.q.IsSymm) {a b : Mat K}
    (hcols : a.cols = p.n) (hsome : s.cholesky.isSolvable = true)
    (h : solveBySchur? p s a b = .ok attempt) (htarget : attempt.target.isSome = true) {l : ℕ → K}
    (hl : ∀ j < p.n, ∑ r ∈ range a.rows, a.get r j * l r = 0) : ∀ k < a.rows, l k = 0 := by
  obtain ⟨w, hw, hlu⟩ := schur_isSolvable h htarget
  obtain ⟨hwcols, hwsolve⟩ := hs.lhs_solve_transpose hp hsymm hcols hw
  have hcombination : ∀ j < p.n, ∑ k ∈ range a.rows, w.get j k * l k = 0 := by
    rw [← hp.q_rows]
    refine (hs.isPosDef hp hsymm hsome).eq_of_lhs_eq (y := fun _ => 0) fun i hi => ?_
    rw [hp.q_rows] at hi
    rw [Mat.lhs_zero, Mat.lhs_sum_mul p.q i a.rows w.get, ← hl i hi]
    exact sum_congr rfl fun k hk => by rw [hwsolve k (mem_range.1 hk) i hi]
  have hcomplement : (a.mul w).rows = a.rows ∧ (a.mul w).cols = a.rows := ⟨rfl, hwcols⟩
  refine LU.eq_zero_of_isSolvable hs.threshold hcomplement.1 hcomplement.2 hlu fun r hr => ?_
  rw [lhs_mul hwcols hr, ← Mat.lhs_sum_mul a r a.rows w.get,
    Mat.lhs_congr fun j hj => hcombination j (hcols ▸ hj), Mat.lhs_zero]

/-- A subproblem with a solution has independent rows, whichever route found it. -/
theorem independent_of_target (hs : Remembers p s) (hp : p.WellSized) (hsymm : p.q.IsSymm)
    (h : subproblem? p s w.members = .ok attempt) (ht : attempt.target = some t) :
    Independent p w := by
  obtain ⟨a, b, hrows, ⟨hzero, -⟩ | ⟨hsome, hschur, htarget⟩ | ⟨lu, hlu, hkkt⟩⟩ :=
    subproblem_cases hp h
  · refine independent_iff.2 fun l _ k hk => ?_
    have := hrows.rows
    omega
  · refine independent_iff.2 fun l hl k hk => ?_
    refine eq_zero_of_schur hs hp hsymm hrows.cols hsome hschur htarget (fun j hj => ?_) k
      (hk.trans_eq hrows.rows.symm)
    rw [hrows.sum_column hj]
    exact hl j hj
  · have hregular := not_isSingular_of_kkt hp hrows (hlu ▸ hs.threshold) hkkt ht
    refine independent_iff.2 fun l hl k hk => ?_
    by_contra hne
    refine hregular ⟨fun _ => 0, l, Or.inr ⟨k, hk, hne⟩, fun j hj => ?_,
      fun r _ => Mat.lhs_zero .., fun k _ => Mat.lhs_zero ..⟩
    rw [Mat.lhs_zero, zero_add]
    exact hl j hj

omit [IsStrictOrderedRing K] in
/-- The equality constraints of an accepted program are independent. -/
theorem independent_of_members_eq_nil (hp : p.WellSized)
    (hind : Rank.RowsIndependent p.me p.ae.cols p.ae 0 0) (hw : w.members = []) :
    Independent p w := by
  rw [independent_iff, hw]
  intro l hl k hk
  refine hind l (fun j _ hj => ?_) k (Nat.zero_le k) hk
  have hrow := hl j (hp.ae_cols ▸ hj)
  rw [List.length_nil, range_zero, sum_empty, add_zero] at hrow
  rw [← hrow, ← range_eq_Ico]
  exact sum_congr rfl fun r _ => mul_comm _ _

end Subproblem

/-! ## Iterations and exchanges -/

/-- The active rows are independent, and they stay so if the inequality joins that limited the last
step. -/
structure Extensible (p : QuadraticProgram K) (s : State K) : Prop where
  independent : Independent p s.working
  blocking : ∀ i, s.blocking = some i → Independent p (s.working.insert i)

/-- The subproblem of the whole working set has a solution, and the iteration is the step towards
it. -/
def StepsAtOnce (par : Params K) (p : QuadraticProgram K) (s : State K) : Prop :=
  ∃ outcome target moved,
    subproblem? p { s with blocking := none } s.working.members = .ok outcome ∧
    outcome.target = some target ∧
    takeStep? par p { s with blocking := none, lu := outcome.lu } s.working.members target =
      .ok moved ∧
    iterate? par p s = .ok moved ∧ moved.state.working = s.working ∧
    moved.state.status.isFailure = false

/-- An iteration took a step, after which the active rows are independent, and they are so after the
exchange that follows; the next iteration steps at once. -/
structure Proceeds (par : Params K) (p : QuadraticProgram K) (moved : Stage K) : Prop where
  usable : moved.state.status.isFailure = false
  independent : Independent p moved.state.working
  le : p.me + moved.state.working.card ≤ p.n
  exchanged : ∃ e, exchange? par p moved.state.counted = .ok e ∧
    Independent p e.state.working ∧ p.me + e.state.working.card ≤ p.n ∧ StepsAtOnce par p e.state

section Iteration

variable {stage : Stage K} {t : Target K}

theorem working_takeStep {active : List ℕ} (h : takeStep? par p s active t = .ok stage) :
    stage.state.working = s.working ∧ stage.state.status.isFailure = false := by
  obtain ⟨-, -, ⟨-, hstate⟩ | ⟨-, stride, -, hstate⟩⟩ := takeStep_cases h
  · rw [hstate]
    exact ⟨rfl, rfl⟩
  · rw [hstate]
    exact ⟨rfl, rfl⟩

/-- A step moves along the active rows, so that an inequality which grows along it is independent of
them. -/
theorem extensible_of_step (hp : p.WellSized) (hs : Consistent p s) (hnone : s.blocking = none)
    (hind : Independent p s.working) (ht : SolvesRows p s.working.members t)
    (h : takeStep? par p s s.working.members t = .ok stage) : Extensible p stage.state := by
  obtain ⟨-, -, ⟨-, hstate⟩ | ⟨-, stride, hstride, hstate⟩⟩ := takeStep_cases h
  · rw [hstate]
    refine ⟨hind, fun i hi => ?_⟩
    cases hnone.symm.trans hi
  · rw [hstate]
    refine ⟨hind, fun i hi => ?_⟩
    have hdx : ∀ j < p.n,
        (Vec.addScaled (-1) s.x t.x).entry j = t.x.entry j - s.x.entry j := by
      intro j hj
      rw [Vec.entry_addScaled (by rw [ht.size_x]; exact hj)]
      ring
    refine hind.insert hp (x := (Vec.addScaled (-1) s.x t.x).entry) (fun r hr => ?_)
      (fun k hk => ?_) (lhs_pos_of_blocking_eq_some hstride hi).ne'
    · rw [Mat.lhs_congr fun j hj => hdx j (hp.ae_cols ▸ hj), Mat.lhs_sub, ht.equality r hr,
        hs.feasible.equality r hr, sub_self]
    · obtain ⟨m, hm, rfl⟩ := exists_getD_eq (WorkingSet.mem_members.2 hk)
      rw [Mat.lhs_congr fun j hj => hdx j (hp.ai_cols ▸ hj), Mat.lhs_sub, ht.tight m hm,
        hs.tight _ hk, sub_self]

variable [IsStrictOrderedRing K] [ExactRoots K]

/-- An iteration takes a step, after which the active rows are independent, or it may not drop any
more constraints. -/
theorem Consistent.extensible (hpar : par.IsExact) (hp : p.WellSized) (hsymm : p.q.IsSymm)
    (hpd : p.q.IsPosDef) (hcheck : p.check par.zeroThreshold = .ok ())
    (hprepared : Prepared par p s) (hs : Consistent p s) {moved : Stage K}
    (h : iterate? par p s = .ok moved) :
    (moved.state.status.isFailure = false ∧ Extensible p moved.state) ∨
      moved.state.status = .failed ∧ moved.state.x = s.x := by
  obtain ⟨s₁, hshrunk, hattempt⟩ := iterate_cases h
  have hs₁ := hs.unblocked.shrunk hshrunk
  have hremembers := (hprepared.unblocked.shrunk hshrunk).remembers hp hsymm hpar.zeroThreshold.ge
  have hx : s₁.x = s.x := hshrunk.x
  generalize moved.state = s₂ at *
  cases hattempt with
  | stepped outcome target stage solved found step =>
    have ht := solves_of_subproblem hremembers hp hsymm solved found
    refine Or.inl ⟨(working_takeStep step).2, ?_⟩
    exact extensible_of_step (s := { s₁ with lu := outcome.lu }) hp
      ⟨hs₁.size_x, hs₁.feasible, hs₁.tight, hs₁.blocking⟩ hshrunk.blocking
      (independent_of_target hremembers hp hsymm solved found) ht step
  | stuck outcome feasible solved unsolvable empty test =>
    have hthreshold : s₁.lu.threshold = 0 :=
      (hprepared.unblocked.shrunk hshrunk).threshold.trans hpar.zeroThreshold
    have hind := independent_of_members_eq_nil hp
      (QuadraticProgram.rowsIndependent_of_check hpar.zeroThreshold.ge hcheck) empty
    exact absurd (isSingular_of_subproblem hp hthreshold solved unsolvable)
      (hind.not_isSingular hp hpd)
  | exhausted outcome solved nonempty => exact Or.inr ⟨rfl, hx⟩

omit [ExactRoots K] in
/-- What joins is what limited the step, and what leaves takes nothing away. -/
theorem Extensible.exchanged {goesOn : Bool} (h : Extensible p s) (hs : Consistent p s)
    (hcount : s.working.count = p.mi) (he : Exchanged par p s goesOn s') :
    Independent p s'.working := by
  cases he with
  | finished settled => exact h.independent
  | joined i joins =>
    rcases joining_eq_some joins with hblocking | hviolated
    · exact h.blocking i hblocking
    · obtain ⟨hother, hlt⟩ := lt_lhs_of_mostViolated hviolated
      have hrange := (WorkingSet.mem_others.1 hother).1
      rw [hcount] at hrange
      exact absurd hlt (not_lt.2 (hs.feasible.inequality _ hrange))
  | left i stays leaves =>
    exact h.independent.of_contains (shrunk_drop s p.me i).contains

omit [ExactRoots K] in
/-- Over independent rows no constraint has to be dropped. -/
theorem stepsAtOnce_of_independent (hp : p.WellSized) (hpd : p.q.IsPosDef)
    (hthreshold : s.lu.threshold = 0) (hready : Ready p s) (hind : Independent p s.working) :
    StepsAtOnce par p s := by
  obtain ⟨outcome, hsolved, -⟩ := hready.unblocked.subproblem_total hp fun i hi =>
    hready.members_lt hi
  cases hfound : outcome.target with
  | none =>
    exact absurd (isSingular_of_subproblem hp hthreshold hsolved hfound)
      (hind.not_isSingular hp hpd)
  | some target =>
    obtain ⟨moved, hmoved, -⟩ := hready.iterate_total par hp
    have hmoved' := (iterate_of_target hsolved hfound).symm.trans hmoved
    exact ⟨outcome, target, moved, hsolved, hfound, hmoved', hmoved,
      working_takeStep (s := { s with blocking := none, lu := outcome.lu }) hmoved'⟩

/-! ## Runs -/

/-- A start that was found, without tolerances and with a positive definite quadratic term. -/
structure Started (par : Params K) (p : QuadraticProgram K) (s : State K) : Prop where
  exact : par.IsExact
  wellSized : p.WellSized
  isSymm : p.q.IsSymm
  isPosDef : p.q.IsPosDef
  check : p.check par.zeroThreshold = .ok ()
  prepared : Prepared par p s
  consistent : Consistent p s
  ready : Ready p s

section Run

variable {s₀ : State K} (h₀ : Started par p s₀)

include h₀

/-- What an iteration from a state that a run reaches does, up to a failure. -/
theorem Started.iterated (h : Reached par p s₀ s) {moved : Stage K}
    (hmoved : iterate? par p s = .ok moved) :
    (Prepared par p moved.state ∧ Consistent p moved.state ∧ Ready p moved.state) ∧
      ((moved.state.status.isFailure = false ∧ Extensible p moved.state) ∨
        moved.state.status = .failed ∧ moved.state.x = s.x) := by
  have hprepared := h₀.prepared.reached h
  have hconsistent := h₀.consistent.reached h₀.exact h₀.wellSized h₀.isSymm
    h₀.isPosDef.isPosSemidef h₀.prepared h
  have hkept := (hconsistent.iterated h₀.exact h₀.wellSized h₀.isSymm h₀.isPosDef.isPosSemidef
    hprepared hmoved).1
  obtain ⟨moved', hmoved', hready⟩ :=
    (h₀.ready.reached h₀.wellSized h).iterate_total par h₀.wellSized
  obtain rfl := Except.ok.inj (hmoved.symm.trans hmoved')
  exact ⟨⟨hprepared.iterated hmoved, hkept, hready⟩,
    hconsistent.extensible h₀.exact h₀.wellSized h₀.isSymm h₀.isPosDef h₀.check hprepared hmoved⟩

theorem Started.exchanged (h : Reached par p s₀ s) {moved : Stage K}
    (hmoved : iterate? par p s = .ok moved) (husable : moved.state.status.isFailure = false)
    {e : Exchange K} (he : exchange? par p moved.state.counted = .ok e) :
    Independent p e.state.working := by
  obtain ⟨⟨hprepared, hconsistent, -⟩, ⟨-, hextensible⟩ | ⟨hfailed, -⟩⟩ := h₀.iterated h hmoved
  · have hcounted : Extensible p moved.state.counted :=
      ⟨hextensible.independent, hextensible.blocking⟩
    exact hcounted.exchanged hconsistent.counted hprepared.count (exchange_cases he)
  · rw [hfailed] at husable
    cases husable

omit [ExactRoots K] in
/-- A state that a run reaches after its first iteration steps at once. -/
theorem Started.stepsAtOnce (h : Reached par p s₀ s) (hind : Independent p s.working) :
    StepsAtOnce par p s :=
  stepsAtOnce_of_independent h₀.wellSized h₀.isPosDef
    ((h₀.prepared.reached h).threshold.trans h₀.exact.zeroThreshold)
    (h₀.ready.reached h₀.wellSized h) hind

theorem Started.failed_first (h : Reached par p s₀ s) {moved : Stage K}
    (hmoved : iterate? par p s = .ok moved) (hfailure : moved.state.status.isFailure = true) :
    s = s₀ := by
  cases h with
  | start => rfl
  | next reached iterated usable exchanged goesOn =>
    have hind := h₀.exchanged reached iterated usable exchanged
    obtain ⟨_, _, moved', -, -, -, hmoved', -, husable⟩ :=
      h₀.stepsAtOnce (.next reached iterated usable exchanged goesOn) hind
    obtain rfl := Except.ok.inj (hmoved.symm.trans hmoved')
    rw [hfailure] at husable
    cases husable

/-- An iteration proceeds unless it is the first one and fails. -/
theorem Started.proceeds (h : Reached par p s₀ s) : ∃ moved, iterate? par p s = .ok moved ∧
    ((s = s₀ ∧ moved.state.status = .failed ∧ moved.state.x = s.x) ∨ Proceeds par p moved) := by
  obtain ⟨moved, hmoved, -⟩ := (h₀.ready.reached h₀.wellSized h).iterate_total par h₀.wellSized
  refine ⟨moved, hmoved, ?_⟩
  obtain ⟨⟨hprepared, -, hready⟩, ⟨husable, hextensible⟩ | ⟨hfailed, hx⟩⟩ := h₀.iterated h hmoved
  · obtain ⟨e, he, hready'⟩ := hready.counted_iteration.exchange_total par h₀.wellSized
    have he : exchange? par p moved.state.counted = .ok e := he
    have hind := h₀.exchanged h hmoved husable he
    have hthreshold := (hprepared.counted.exchanged (exchange_cases he)).threshold
    refine Or.inr ⟨husable, hextensible.independent, ?_, e, he, hind, ?_, ?_⟩
    · rw [hready.counted]
      exact hextensible.independent.le
    · rw [hready'.counted]
      exact hind.le
    · exact stepsAtOnce_of_independent h₀.wellSized h₀.isPosDef
        (hthreshold.trans h₀.exact.zeroThreshold) hready' hind
  · refine Or.inl ⟨h₀.failed_first h hmoved ?_, hfailed, hx⟩
    rw [hfailed]
    rfl

/-- A run that ends failed fails in its first iteration. -/
theorem Started.iterations_of_failed (hstatus : s₀.status = .feasible) (h : Ended par p s₀ s)
    (hfailed : s.status = .failed) : s.iterations = s₀.iterations + 1 := by
  cases h with
  | limit reached =>
    have hfeasible := isFeasible_of_reached hstatus reached
    rw [hfailed] at hfeasible
    cases hfeasible
  | @failed s moved reached iterated failure =>
    obtain rfl := h₀.failed_first reached iterated failure
    exact congrArg (· + 1) (iterations_of_iterate iterated)
  | finished reached iterated usable exchanged ends =>
    rw [(exchange_cases exchanged).status, ends] at hfailed
    cases hfailed

end Run

theorem started_initialise (hpar : par.IsExact) (hε : (Scalar.epsilon : K) = 0)
    (hp : p.WellSized) (hsymm : p.q.IsSymm) (hcheck : p.check par.zeroThreshold = .ok ())
    (hfactor : ((Cholesky.init par.zeroThreshold).compute p.q).isSolvable = true)
    {offer : Option (Solution K)} (h : initialise? par p offer (start par p).state = .ok stage)
    (hfits : Fitting p stage.state) (hfeasible : stage.state.status.isFeasible = true) :
    Started par p stage.state := by
  have hprepared := prepared_initialise h hfeasible
  have hsolvable : stage.state.cholesky.isSolvable = true := hprepared.cholesky ▸ hfactor
  have hremembers := hprepared.remembers hp hsymm hpar.zeroThreshold.ge
  exact ⟨hpar, hp, hsymm, hremembers.isPosDef hp hsymm hsolvable, hcheck, hprepared,
    consistent_initialise hpar hε hp h hfeasible,
    ready_initialise hp h hfits hfeasible⟩

end Iteration

end ActiveSet

namespace QuadraticProgram

open ActiveSet

variable {K : Type} [Field K] [LinearOrder K] [IsStrictOrderedRing K] [Exact K] [ExactRoots K]

/-- From the first step on, whatever point was offered and however many iterations and retries are
allowed, the active rows are independent after every iteration and every exchange, and the next
iteration takes its step at once. Only the first iteration can fail. -/
theorem active_rows_independent (par : Params K) (p : QuadraticProgram K)
    (offer : Option (Solution K)) (hp : p.IsBuilt) (hsymm : p.q.IsSymm) (hpar : par.IsExact)
    (hε : (Scalar.epsilon : K) = 0) (hcheck : p.check par.zeroThreshold = .ok ())
    (hfactor : ((Cholesky.init par.zeroThreshold).compute p.q).isSolvable = true) :
    (∃ stage, initialise? par p offer (start par p).state = .ok stage ∧
      (stage.state.status = .feasible → ∀ s, Reached par p stage.state s →
        ∃ moved, iterate? par p s = .ok moved ∧
          ((s = stage.state ∧ moved.state.status = .failed ∧ moved.state.x = s.x) ∨
            Proceeds par p moved))) ∧
    ∀ out sol, p.solve? par offer = .ok out → out.result = .ok sol → sol.status = .failed →
      sol.iterations ≤ 1 := by
  have hsized := hp.wellSized hcheck
  obtain ⟨stage, hstage, hfits, -⟩ := initialise_fits par (s := (start par p).state) hsized
    (hasSignedBounds hsized) (hsized.me_le_n hcheck) offer (fun _ => startFits_exact p)
    (Vec.size_zeros p.n) (Vec.size_zeros _) (WorkingSet.count_empty p.mi)
  have hstarted := started_initialise hpar hε hsized hsymm hcheck hfactor hstage hfits
  refine ⟨⟨stage, hstage, fun hstatus s hs => ?_⟩, fun out sol hsolve hsol hfailed => ?_⟩
  · refine (hstarted ?_).proceeds hs
    rw [hstatus]
    rfl
  · obtain ⟨-, stage', s, value, hstage', hlast, rfl⟩ := solution_of_solve hsolve hsol
    obtain rfl := Except.ok.inj (hstage.symm.trans hstage')
    have hzero : stage.state.iterations = 0 := iterations_initialise hstage
    have hle : s.iterations ≤ 1 := by
      rcases hlast with ⟨hfeasible, last, rfl, hloop⟩ | ⟨-, rfl⟩
      · have hend := ended_of_loop .start hloop
        have hstatus := (status_initialise hstage hfeasible).1
        rw [(hstarted hfeasible).iterations_of_failed hstatus hend hfailed, hzero]
      · omega
    exact hle

theorem active_rows_independent_limitedSample :
    letI := Exact.real 1000
    ∃ trace moved, initialise? sampleParams limitedSample (some sampleOffer)
        (start sampleParams limitedSample).state = .ok ⟨sampleState, trace⟩ ∧
      iterate? sampleParams limitedSample sampleState = .ok moved ∧
      moved.state.blocking = some 0 ∧ Proceeds sampleParams limitedSample moved := by
  let := Exact.real 1000
  have := ExactRoots.real 1000
  obtain ⟨-, trace, hstage⟩ := initialise_sample
  obtain ⟨progress, hmoved⟩ := iterate_limitedSample
  obtain ⟨⟨stage, hstage', hrun⟩, -⟩ := active_rows_independent sampleParams limitedSample
    (some sampleOffer) isBuilt_halfLine isSymm_halfLine isExact_sampleParams rfl rfl
    (Cholesky.isSolvable_single pivot_sample)
  obtain rfl := Except.ok.inj (hstage.symm.trans hstage')
  obtain ⟨moved, hmoved', ⟨-, -, hstays⟩ | hproceeds⟩ := hrun rfl sampleState .start
  · obtain rfl := Except.ok.inj (hmoved.symm.trans hmoved')
    have hzero : (#[1 / 2] : Array ℝ) = #[0] := hstays
    simp at hzero
  · obtain rfl := Except.ok.inj (hmoved.symm.trans hmoved')
    exact ⟨trace, _, hstage, hmoved, rfl, hproceeds⟩

end QuadraticProgram

end QuadProg
