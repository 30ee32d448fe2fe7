import QuadProg.Proofs.ActiveSet.Independence
import QuadProg.Proofs.Mat.Dense

/-!
# The routes to the solution of a subproblem

A subproblem asks for a point `x` and multipliers `l` with `Q x + Aᵀ l = c` and `A x = b`, where `A`
and `b` hold the equality constraints and the listed inequalities. The factor of `Q` alone, the
Schur complement and the bordered matrix are three routes to them. Whichever of them comes to a
result, the bordered matrix is regular: the result is its only solution, so that the routes agree,
and the rows of `A` are linearly independent. Without a threshold for pivots the last route fails
only where the bordered matrix is singular.
-/

namespace QuadProg

open Finset Matrix

namespace ActiveSet

section Bordered

variable {K : Type} [Field K] [LinearOrder K] [Exact K]
variable {p : QuadraticProgram K} {active : List ℕ}

/-! ## The bordered system -/

/-- The quadratic term. -/
def hessian (p : QuadraticProgram K) : Matrix (Fin p.n) (Fin p.n) K := .of fun i j => p.q.get i j

/-- The linear term. -/
def linearTerm (p : QuadraticProgram K) : Fin p.n → K := fun j => p.c.get j 0

/-- The equality constraints and then the listed inequalities. -/
def stacked (p : QuadraticProgram K) (active : List ℕ) :
    Matrix (Fin (p.me + active.length)) (Fin p.n) K :=
  .of fun k j => if k < p.me then p.ae.get k j else p.ai.get (active.getD (k - p.me) 0) j

/-- The right-hand sides of these rows. -/
def stackedBounds (p : QuadraticProgram K) (active : List ℕ) : Fin (p.me + active.length) → K :=
  fun k => if k < p.me then p.be.get k 0 else p.bound (active.getD (k - p.me) 0)

/-- The bordered matrix. -/
def bordered (p : QuadraticProgram K) (active : List ℕ) :
    Matrix (Fin p.n ⊕ Fin (p.me + active.length)) (Fin p.n ⊕ Fin (p.me + active.length)) K :=
  fromBlocks (hessian p) (stacked p active)ᵀ (stacked p active) 0

theorem bordered_mulVec (x : Fin p.n → K) (l : Fin (p.me + active.length) → K) :
    bordered p active *ᵥ Sum.elim x l =
      Sum.elim (hessian p *ᵥ x + (stacked p active)ᵀ *ᵥ l) (stacked p active *ᵥ x) := by
  rw [bordered, fromBlocks_mulVec, Sum.elim_comp_inl, Sum.elim_comp_inr, zero_mulVec, add_zero]

theorem hessian_mulVec (hp : p.WellSized) (x : ℕ → K) (j : Fin p.n) :
    (hessian p *ᵥ fun i => x i) j = p.q.lhs j x := by
  rw [Mat.lhs, hp.q_cols]
  exact Fin.sum_univ_eq_sum_range (fun i => p.q.get j i * x i) p.n

theorem transpose_stacked_mulVec (l : ℕ → K) (j : Fin p.n) :
    ((stacked p active)ᵀ *ᵥ fun k => l k) j = ∑ r ∈ range p.me, p.ae.get r j * l r +
      ∑ k ∈ range active.length, p.ai.get (active.getD k 0) j * l (p.me + k) := by
  have hsum : ((stacked p active)ᵀ *ᵥ fun k => l k) j =
      ∑ k ∈ range (p.me + active.length),
        (if k < p.me then p.ae.get k j else p.ai.get (active.getD (k - p.me) 0) j) * l k :=
    Fin.sum_univ_eq_sum_range
      (fun k => (if k < p.me then p.ae.get k j else p.ai.get (active.getD (k - p.me) 0) j) * l k)
      (p.me + active.length)
  rw [hsum, sum_range_add]
  congr 1
  · exact sum_congr rfl fun r hr => by rw [if_pos (mem_range.1 hr)]
  · exact sum_congr rfl fun k _ => by rw [if_neg (by omega), Nat.add_sub_cancel_left]

/-- The stacked rows at a point, taken apart. -/
theorem stacked_mulVec_eq_iff (hp : p.WellSized) (x v : ℕ → K) :
    (stacked p active *ᵥ fun j => x j) = (fun k : Fin (p.me + active.length) => v k) ↔
      (∀ r < p.me, p.ae.lhs r x = v r) ∧
        ∀ k < active.length, p.ai.lhs (active.getD k 0) x = v (p.me + k) := by
  have hequality : ∀ k : Fin (p.me + active.length), (k : ℕ) < p.me →
      (stacked p active *ᵥ fun j => x j) k = p.ae.lhs k x := by
    intro k hk
    rw [Mat.lhs, hp.ae_cols, ← Fin.sum_univ_eq_sum_range (fun j => p.ae.get k j * x j) p.n,
      mulVec, dotProduct]
    refine sum_congr rfl fun j _ => ?_
    rw [stacked, of_apply, if_pos hk]
  have hmember : ∀ k : Fin (p.me + active.length), p.me ≤ k →
      (stacked p active *ᵥ fun j => x j) k = p.ai.lhs (active.getD (k - p.me) 0) x := by
    intro k hk
    rw [Mat.lhs, hp.ai_cols, ← Fin.sum_univ_eq_sum_range
      (fun j => p.ai.get (active.getD (k - p.me) 0) j * x j) p.n, mulVec, dotProduct]
    refine sum_congr rfl fun j _ => ?_
    rw [stacked, of_apply, if_neg (by omega)]
  constructor
  · intro h
    constructor
    · intro r hr
      exact (hequality ⟨r, by omega⟩ hr).symm.trans (congrFun h _)
    · intro k hk
      have hrow := (hmember ⟨p.me + k, by omega⟩ (Nat.le_add_right _ _)).symm.trans (congrFun h _)
      simpa using hrow
  · rintro ⟨hupper, hlower⟩
    funext k
    by_cases hk : (k : ℕ) < p.me
    · rw [hequality k hk]
      exact hupper k hk
    · rw [hmember k (by omega), hlower (k - p.me) (by omega), Nat.add_sub_cancel' (by omega)]

/-- The bordered matrix maps a point other than zero to zero just when it is singular. -/
theorem isSingular_iff_det (hp : p.WellSized) :
    IsSingular p active ↔ (bordered p active).det = 0 := by
  rw [← exists_mulVec_eq_zero_iff]
  constructor
  · rintro ⟨x, l, hne, hbalance, hequality, htight⟩
    refine ⟨Sum.elim (fun j => x j) (fun k => l k), fun hzero => ?_, ?_⟩
    · rcases hne with ⟨j, hj, hne⟩ | ⟨k, hk, hne⟩
      · exact hne (congrFun hzero (.inl ⟨j, hj⟩))
      · exact hne (congrFun hzero (.inr ⟨k, hk⟩))
    · rw [bordered_mulVec, (stacked_mulVec_eq_iff hp x fun _ => 0).2 ⟨hequality, htight⟩]
      have hupper : (hessian p *ᵥ fun j => x j) + (stacked p active)ᵀ *ᵥ (fun k => l k) = 0 := by
        funext j
        rw [Pi.add_apply, hessian_mulVec hp, transpose_stacked_mulVec]
        exact hbalance j j.isLt
      rw [hupper]
      exact Sum.elim_zero_zero
  · rintro ⟨v, hne, hv⟩
    obtain ⟨x, hx⟩ := exists_sequence (v ∘ Sum.inl)
    obtain ⟨l, hl⟩ := exists_sequence (v ∘ Sum.inr)
    obtain rfl : v = Sum.elim (fun j : Fin p.n => x j)
        (fun k : Fin (p.me + active.length) => l k) := by
      rw [← hx, ← hl, Sum.elim_comp_inl_inr]
    rw [bordered_mulVec] at hv
    have hupper := fun j => congrFun hv (.inl j)
    have hlower : (stacked p active *ᵥ fun j => x j) = fun _ => 0 :=
      funext fun k => congrFun hv (.inr k)
    obtain ⟨hequality, htight⟩ := (stacked_mulVec_eq_iff hp x fun _ => 0).1 hlower
    refine ⟨x, l, ?_, fun j hj => ?_, hequality, htight⟩
    · by_contra hzero
      push Not at hzero
      refine hne (funext fun i => ?_)
      cases i with
      | inl j => exact hzero.1 j j.isLt
      | inr k => exact hzero.2 k k.isLt
    · rw [← hessian_mulVec hp x ⟨j, hj⟩, ← transpose_stacked_mulVec l ⟨j, hj⟩]
      exact hupper ⟨j, hj⟩

/-! ## Regular systems -/

/-- The target is the only solution of the bordered system, and the rows of the system are linearly
independent. -/
structure SolvesOnly (p : QuadraticProgram K) (active : List ℕ) (t : Target K) : Prop where
  size_x : t.x.size = p.n
  size_multipliers : t.multipliers.size = p.me + active.length
  /-- `Q x + Aᵀ l = c` -/
  balance : hessian p *ᵥ (fun j => t.x.entry j) +
    (stacked p active)ᵀ *ᵥ (fun k => t.multipliers.entry k) = linearTerm p
  /-- `A x = b` -/
  tight : stacked p active *ᵥ (fun j => t.x.entry j) = stackedBounds p active
  unique : ∀ x l, hessian p *ᵥ x + (stacked p active)ᵀ *ᵥ l = linearTerm p →
    stacked p active *ᵥ x = stackedBounds p active →
      (x = fun j : Fin p.n => t.x.entry j) ∧
        l = fun k : Fin (p.me + active.length) => t.multipliers.entry k
  independent : LinearIndependent K (stacked p active).row
  le : p.me + active.length ≤ p.n

omit [LinearOrder K] [Exact K] in
/-- What a regular matrix maps to the same vector is the same. -/
theorem eq_of_mulVec_eq {ι : Type} [Fintype ι] [DecidableEq ι] {M : Matrix ι ι K} (hM : M.det ≠ 0)
    {v w : ι → K} (h : M *ᵥ v = M *ᵥ w) : v = w := by
  refine sub_eq_zero.1 (Matrix.eq_zero_of_mulVec_eq_zero hM ?_)
  rw [mulVec_sub, h, sub_self]

/-- The rows of a regular bordered matrix are independent: a combination of them that vanishes is
mapped to zero, together with the point zero. -/
theorem linearIndependent_stacked (hregular : (bordered p active).det ≠ 0) :
    LinearIndependent K (stacked p active).row := by
  rw [Fintype.linearIndependent_iff]
  intro g hg
  have hcombination : (stacked p active)ᵀ *ᵥ g = 0 := by
    rw [mulVec_transpose, vecMul_eq_sum]
    exact hg
  have hzero : Sum.elim (0 : Fin p.n → K) g = 0 := by
    apply Matrix.eq_zero_of_mulVec_eq_zero hregular
    rw [bordered_mulVec, mulVec_zero, mulVec_zero, hcombination, add_zero, Sum.elim_zero_zero]
  exact fun k => congrFun hzero (.inr k)

theorem SolvesRows.solvesOnly (hp : p.WellSized) {t : Target K} (h : SolvesRows p active t)
    (hsize : t.multipliers.size = p.me + active.length)
    (hregular : (bordered p active).det ≠ 0) : SolvesOnly p active t := by
  have hbalance : hessian p *ᵥ (fun j => t.x.entry j) +
      (stacked p active)ᵀ *ᵥ (fun k => t.multipliers.entry k) = linearTerm p := by
    funext j
    rw [Pi.add_apply, hessian_mulVec hp, transpose_stacked_mulVec]
    exact h.balance j j.isLt
  have htight : stacked p active *ᵥ (fun j => t.x.entry j) = stackedBounds p active := by
    refine (stacked_mulVec_eq_iff hp t.x.entry fun k =>
      if k < p.me then p.be.get k 0 else p.bound (active.getD (k - p.me) 0)).2 ⟨?_, ?_⟩
    · intro r hr
      rw [if_pos hr]
      exact h.equality r hr
    · intro k hk
      rw [if_neg (by omega), Nat.add_sub_cancel_left]
      exact h.tight k hk
  have hindependent := linearIndependent_stacked hregular
  refine ⟨h.size_x, hsize, hbalance, htight, fun x l hx hl => ?_, hindependent, ?_⟩
  · have hsame : Sum.elim x l = Sum.elim (fun j : Fin p.n => t.x.entry j)
        (fun k : Fin (p.me + active.length) => t.multipliers.entry k) := by
      apply eq_of_mulVec_eq hregular
      rw [bordered_mulVec, bordered_mulVec, hx, hl, hbalance, htight]
    exact ⟨funext fun j => congrFun hsame (.inl j), funext fun k => congrFun hsame (.inr k)⟩
  · have hcard := hindependent.fintype_card_le_finrank
    rwa [Fintype.card_fin, Module.finrank_fin_fun] at hcard

/-- Two targets that are the only solution are the same. -/
theorem SolvesOnly.eq {t t' : Target K} (h : SolvesOnly p active t)
    (h' : SolvesOnly p active t') : t = t' := by
  obtain ⟨hx, hl⟩ := h.unique _ _ h'.balance h'.tight
  obtain ⟨x, l⟩ := t
  obtain ⟨x', l'⟩ := t'
  have hpoint : x = x' := by
    refine Vec.ext_entry (h.size_x.trans h'.size_x.symm) fun j hj => ?_
    have hj : j < p.n := hj.trans_eq h.size_x
    exact (congrFun hx ⟨j, hj⟩).symm
  have hmultipliers : l = l' := by
    refine Vec.ext_entry (h.size_multipliers.trans h'.size_multipliers.symm) fun k hk => ?_
    have hk : k < p.me + active.length := hk.trans_eq h.size_multipliers
    exact (congrFun hl ⟨k, hk⟩).symm
  rw [hpoint, hmultipliers]

end Bordered

/-! ## The routes -/

section Found

variable {K : Type} [Field K] [LinearOrder K] [Exact K]
variable {par : Params K} {p : QuadraticProgram K} {s : State K} {active : List ℕ} {t : Target K}

/-- The target comes from one of the routes. -/
inductive Found (p : QuadraticProgram K) (s : State K) (active : List ℕ) : Target K → Prop
  /-- Without rows it comes from the factor of the quadratic term. -/
  | alone {x : Vec K} (none : p.me + active.length = 0)
    (solve : s.cholesky.solveVec? p.c.data = .ok x) : Found p s active ⟨x, #[]⟩
  /-- It comes from the Schur complement of the rows. -/
  | schur {a b : Mat K} {attempt : Attempt K} {t : Target K} (rows : HoldsRows p active a b)
    (solvable : s.cholesky.isSolvable = true) (solve : solveBySchur? p s a b = .ok attempt)
    (target : attempt.target = some t) : Found p s active t
  /-- It comes from the bordered matrix. -/
  | bordered {a b : Mat K} {lu : LU K} {attempt : Attempt K} {t : Target K}
    (rows : HoldsRows p active a b) (threshold : lu.threshold = s.lu.threshold)
    (solve : solveByKkt? p lu a b = .ok attempt) (target : attempt.target = some t) :
    Found p s active t

theorem found_of_subproblem (hp : p.WellSized) {attempt : Attempt K}
    (h : subproblem? p s active = .ok attempt) (ht : attempt.target = some t) :
    Found p s active t := by
  obtain ⟨a, b, hrows, ⟨hzero, -, -, x, hx, htarget⟩ | ⟨hsome, hschur, -⟩ | ⟨lu, hlu, hkkt⟩⟩ :=
    subproblem_cases hp h
  · obtain rfl := Option.some.inj (htarget.symm.trans ht)
    exact .alone (hrows.rows.symm.trans hzero) hx
  · exact .schur hrows hsome hschur ht
  · exact .bordered hrows hlu hkkt ht

/-- The state with all that a subproblem does not read put to its size. -/
def blank (p : QuadraticProgram K) (s : State K) : State K :=
  { s with
    x := Vec.zeros p.n
    multipliers := Vec.zeros (p.me + p.mi)
    working := WorkingSet.empty p.mi
    blocking := none }

theorem Computed.ready (h : Computed par p s) (hp : p.WellSized) : Ready p (blank p s) := by
  have hrows : ∀ l, s.cholesky.factor = some l → l.rows = p.n := fun l hl =>
    (rows_factor (h.cholesky ▸ hl)).trans hp.q_rows
  refine ⟨⟨Vec.size_zeros p.n, Vec.size_zeros _, WorkingSet.count_empty p.mi,
    WorkingSet.counted_empty p.mi⟩, hrows, fun m hm => ?_, fun i hi => nomatch hi⟩
  obtain ⟨l, hl, hsize⟩ := factor_of_solveVec (h.minimizer m hm)
  exact hsize.trans (hrows l hl)

theorem Found.size_multipliers (h : Found p s active t) (hp : p.WellSized)
    (hs : Computed par p s) : t.multipliers.size = p.me + active.length := by
  cases h with
  | alone none solve => exact none.symm
  | schur rows solvable solve target =>
    obtain ⟨attempt', hattempt, hsize⟩ :=
      (hs.ready hp).schur_total hp solvable rows.cols (Prod.ext (rows.b_rows.trans rows.rows.symm)
        rows.b_cols)
    obtain rfl := Except.ok.inj (solve.symm.trans hattempt)
    exact (hsize _ target).2.trans rows.rows
  | bordered rows threshold solve target =>
    obtain ⟨attempt', hattempt, hsize⟩ := kkt_total hp _ rows.cols
      (Prod.ext (rows.b_rows.trans rows.rows.symm) rows.b_cols)
    obtain rfl := Except.ok.inj (solve.symm.trans hattempt)
    exact (hsize _ target).2.trans rows.rows

variable [IsStrictOrderedRing K]

/-- Whichever route comes to a result, the bordered matrix is regular. -/
theorem Found.not_isSingular (h : Found p s active t) (hp : p.WellSized) (hsymm : p.q.IsSymm)
    (hs : Remembers p s) : ¬ IsSingular p active := by
  cases h with
  | alone none solve =>
    obtain ⟨l, hl, -⟩ := factor_of_solveVec solve
    have hsolvable : s.cholesky.isSolvable = true := Option.isSome_iff_exists.2 ⟨l, hl⟩
    exact not_isSingular_of_isPosDef hp (hs.isPosDef hp hsymm hsolvable) fun l _ k hk => by omega
  | schur rows solvable solve target =>
    refine not_isSingular_of_isPosDef hp (hs.isPosDef hp hsymm solvable) fun l hl k hk => ?_
    refine eq_zero_of_schur hs hp hsymm rows.cols solvable solve (by rw [target]; rfl)
      (fun j hj => ?_) k (hk.trans_eq rows.rows.symm)
    rw [rows.sum_column hj]
    exact hl j hj
  | bordered rows threshold solve target =>
    exact not_isSingular_of_kkt hp rows (threshold ▸ hs.threshold) solve target

theorem Found.solvesRows (h : Found p s active t) (hp : p.WellSized) (hsymm : p.q.IsSymm)
    (hs : Remembers p s) : SolvesRows p active t := by
  cases h with
  | @alone x none solve =>
    obtain ⟨hsize, hsolves⟩ := hs.lhs_solveVec hp hsymm solve
    refine ⟨hsize, fun j hj => ?_, fun r hr => by omega, fun k hk => by omega⟩
    have hme : p.me = 0 := by omega
    have hlength : active.length = 0 := by omega
    rw [hme, hlength, range_zero, sum_empty, sum_empty, add_zero, add_zero, hsolves j hj]
    exact Mat.entry_data hp.c_cols hj
  | schur rows solvable solve target =>
    exact solves_of_schur hs hp hsymm rows solvable solve target
  | bordered rows threshold solve target =>
    exact solves_of_kkt hp rows (threshold ▸ hs.threshold) solve target

theorem Found.solvesOnly [ExactRoots K] (h : Found p s active t) (hp : p.WellSized)
    (hsymm : p.q.IsSymm) (hthreshold : 0 ≤ par.zeroThreshold) (hs : Computed par p s) :
    SolvesOnly p active t := by
  have hremembers := hs.remembers hp hsymm hthreshold
  refine (h.solvesRows hp hsymm hremembers).solvesOnly hp (h.size_multipliers hp hs) ?_
  rw [Ne, ← isSingular_iff_det hp]
  exact h.not_isSingular hp hsymm hremembers

end Found

end ActiveSet

namespace QuadraticProgram

open ActiveSet

variable {K : Type} [Field K] [LinearOrder K] [IsStrictOrderedRing K] [Exact K] [ExactRoots K]

/-- A subproblem is never refused. What comes back, by whichever route, is the only solution of the
bordered system, so that any two routes that come to a result agree; and the rows of the system are
independent. With a threshold of zero nothing comes back only where the bordered matrix is singular.
-/
theorem routes_agree (par : Params K) (p : QuadraticProgram K) (s : State K) (active : List ℕ)
    (hp : p.IsBuilt) (hcheck : p.check par.zeroThreshold = .ok ()) (hsymm : p.q.IsSymm)
    (hthreshold : 0 ≤ par.zeroThreshold) (hs : Computed par p s)
    (hactive : ∀ i ∈ active, i < p.mi) :
    (∃ attempt, subproblem? p s active = .ok attempt ∧
      (∀ t, attempt.target = some t → Found p s active t ∧ SolvesOnly p active t) ∧
      (attempt.target = none → par.zeroThreshold = 0 → (bordered p active).det = 0)) ∧
    (∀ t, Found p s active t → SolvesOnly p active t) ∧
    ∀ t t', Found p s active t → Found p s active t' → t = t' := by
  have hsized := hp.wellSized hcheck
  have hfound : ∀ t, Found p s active t → SolvesOnly p active t := fun t ht =>
    ht.solvesOnly hsized hsymm hthreshold hs
  refine ⟨?_, hfound, fun t t' ht ht' => (hfound t ht).eq (hfound t' ht')⟩
  obtain ⟨attempt, hattempt, -⟩ := (hs.ready hsized).subproblem_total hsized hactive
  have hattempt : subproblem? p s active = .ok attempt := hattempt
  refine ⟨attempt, hattempt, fun t ht => ?_, fun hnone hzero => ?_⟩
  · have hroute := found_of_subproblem hsized hattempt ht
    exact ⟨hroute, hfound t hroute⟩
  · rw [← isSingular_iff_det hsized]
    exact isSingular_of_subproblem hsized (hs.threshold.trans hzero) hattempt hnone

theorem isSymm_planeSample :
    letI := Exact.real 1000
    planeSample.q.IsSymm := by
  let := Exact.real 1000
  intro i j
  rcases i with _ | _ | i <;> rcases j with _ | _ | j <;>
    simp [planeSample, ofData, Mat.get, Shape.cols, Shape.Contains, Shape.index, Shape.rows]

theorem lhs_planeSample (z : ℕ → ℝ) :
    letI := Exact.real 1000
    planeSample.q.lhs 0 z = z 0 ∧ planeSample.q.lhs 1 z = z 1 ∧
      planeSample.ai.lhs 0 z = z 0 + z 1 := by
  let := Exact.real 1000
  simp [planeSample, ofData, Mat.lhs, Mat.cols, Mat.get, Shape.cols, Shape.Contains, Shape.index,
    Shape.rows, sum_range_succ]

/-- The only row of the sample, weighted. -/
theorem column_planeSample {j : ℕ} (hj : j < 2) (l : ℕ → ℝ) :
    letI := Exact.real 1000
    ∑ r ∈ range planeSample.me, planeSample.ae.get r j * l r +
      ∑ k ∈ range [0].length, planeSample.ai.get ([0].getD k 0) j * l (planeSample.me + k) =
        l 0 := by
  let := Exact.real 1000
  have hme : planeSample.me = 0 := rfl
  have hentry : planeSample.ai.get 0 j = 1 := by
    rcases j with _ | _ | j
    · simp [planeSample, ofData, Mat.get, Shape.cols, Shape.Contains, Shape.index, Shape.rows]
    · simp [planeSample, ofData, Mat.get, Shape.cols, Shape.Contains, Shape.index, Shape.rows]
    · omega
  simp [hme, hentry]

theorem not_isSingular_planeSample :
    letI := Exact.real 1000
    ¬ IsSingular planeSample [0] := by
  let := Exact.real 1000
  rintro ⟨x, l, hne, hbalance, -, htight⟩
  obtain ⟨hupper, hlower, hrow⟩ := lhs_planeSample x
  have hfirst := hbalance 0 (by decide)
  have hsecond := hbalance 1 (by decide)
  have hsum : planeSample.ai.lhs 0 x = 0 := htight 0 (by decide)
  rw [hupper, column_planeSample (by decide)] at hfirst
  rw [hlower, column_planeSample (by decide)] at hsecond
  rw [hrow] at hsum
  have hl : l 0 = 0 := by linarith
  rcases hne with ⟨j, hj, hne⟩ | ⟨k, hk, hne⟩
  · have hj : j < 2 := hj
    rcases j with _ | _ | j
    · exact hne (by linarith)
    · exact hne (by linarith)
    · omega
  · have hk : k < 1 := hk
    obtain rfl : k = 0 := by omega
    exact hne hl

theorem solvesRows_planeSample :
    letI := Exact.real 1000
    SolvesRows planeSample [0] ⟨#[3 / 2, -1 / 2], #[1 / 2]⟩ := by
  let := Exact.real 1000
  have hme : planeSample.me = 0 := rfl
  obtain ⟨hupper, hlower, hrow⟩ := lhs_planeSample (Vec.entry #[3 / 2, -1 / 2])
  refine ⟨rfl, fun j hj => ?_, fun r hr => by omega, fun k hk => ?_⟩
  · have hj : j < 2 := hj
    rw [column_planeSample hj]
    rcases j with _ | _ | j
    · rw [hupper]
      norm_num [planeSample, ofData, Mat.get, Shape.cols, Shape.Contains, Shape.index, Shape.rows,
        Vec.entry]
    · rw [hlower]
      norm_num [planeSample, ofData, Mat.get, Shape.cols, Shape.Contains, Shape.index, Shape.rows,
        Vec.entry]
    · omega
  · have hk : k < 1 := hk
    obtain rfl : k = 0 := by omega
    refine hrow.trans ?_
    norm_num [planeSample, ofData, bound, Mat.get, Shape.cols, Shape.Contains, Shape.index,
      Shape.rows, Vec.entry]

/-- With the inequality as an equation, the sample has its minimum at `(3/2, -1/2)`. -/
theorem routes_agree_planeSample :
    letI := Exact.real 1000
    ∃ attempt, subproblem? planeSample planeState [0] = .ok attempt ∧
      attempt.target = some ⟨#[3 / 2, -1 / 2], #[1 / 2]⟩ ∧
      SolvesOnly planeSample [0] ⟨#[3 / 2, -1 / 2], #[1 / 2]⟩ := by
  let := Exact.real 1000
  have := ExactRoots.real 1000
  have hcheck : planeSample.check sampleParams.zeroThreshold = .ok () := rfl
  have hbuilt : planeSample.IsBuilt := ⟨_, _, _, _, _, _, rfl⟩
  have hsized := hbuilt.wellSized hcheck
  have hregular := (isSingular_iff_det hsized).not.1 not_isSingular_planeSample
  have hexpected := solvesRows_planeSample.solvesOnly hsized rfl hregular
  obtain ⟨⟨attempt, hattempt, hsome, hnone⟩, -, -⟩ := routes_agree sampleParams planeSample
    planeState [0] hbuilt hcheck isSymm_planeSample le_rfl ⟨rfl, rfl, fun _ hm => nomatch hm⟩
    (by simp [planeSample, ofData, mi, Mat.rows, Shape.rows])
  refine ⟨attempt, hattempt, ?_, hexpected⟩
  cases htarget : attempt.target with
  | none => exact absurd (hnone htarget rfl) hregular
  | some t => rw [(hsome t htarget).2.eq hexpected]

end QuadraticProgram

end QuadProg
