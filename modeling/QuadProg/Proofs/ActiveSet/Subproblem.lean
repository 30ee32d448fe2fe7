import QuadProg.Proofs.ActiveSet.Stages
import QuadProg.Proofs.Factor.Cholesky
import QuadProg.Proofs.QuadraticProgram

/-!
# Subproblems in exact arithmetic

Whichever route finds it, the solution of a subproblem is a point on the active rows together with
multipliers that balance the gradient there (`solves_of_subproblem`). If there is none, the bordered
system is singular (`isSingular_of_subproblem`).
-/

namespace QuadProg

open Finset

namespace ActiveSet

variable {K : Type} [Field K] [LinearOrder K] [Exact K]
variable {p : QuadraticProgram K} {active : List ℕ} {a b : Mat K}

/-- The factors and the minimiser that a state remembers are those of the program. -/
structure Remembers (p : QuadraticProgram K) (s : State K) : Prop where
  factor : ∀ l, s.cholesky.factor = some l → Cholesky.Factored p.q l p.n p.n
  minimizer : ∀ m, s.minimizer = some m → ∀ j < p.n, p.q.lhs j m.entry = p.c.get j 0
  threshold : 0 ≤ s.lu.threshold

/-! ## The active rows -/

/-- The matrix `a` holds the equality constraints and then the listed inequalities, and `b` their
right-hand sides. -/
structure HoldsRows (p : QuadraticProgram K) (active : List ℕ) (a b : Mat K) : Prop where
  rows : a.rows = p.me + active.length
  cols : a.cols = p.n
  equality : ∀ r < p.me, ∀ j < p.n, a.get r j = p.ae.get r j
  inequality : ∀ k < active.length, ∀ j < p.n, a.get (p.me + k) j = p.ai.get (active.getD k 0) j
  b_rows : b.rows = p.me + active.length
  b_cols : b.cols = 1
  b_equality : ∀ r < p.me, b.get r 0 = p.be.get r 0
  b_inequality : ∀ k < active.length, b.get (p.me + k) 0 = p.bound (active.getD k 0)

theorem holdsRows (hp : p.WellSized) (ha : (ActiveRows.ofCount p.me).matrix? p active = .ok a)
    (hb : (ActiveRows.ofCount p.me).bounds? p active = .ok b) : HoldsRows p active a b := by
  unfold ActiveRows.matrix? at ha
  unfold ActiveRows.bounds? at hb
  rw [Checked.bind_eq_ok_iff] at ha hb
  obtain ⟨rows, hrows, ha⟩ := ha
  obtain ⟨bounds, hbounds, hb⟩ := hb
  obtain ⟨-, rfl⟩ := guarded_eq_ok_iff.1 hrows
  obtain ⟨-, rfl⟩ := guarded_eq_ok_iff.1 hbounds
  have hai := hp.ai_cols
  have hbi := hp.bi_cols
  unfold ActiveRows.ofCount at ha hb
  by_cases hme : 0 < p.me
  · rw [if_pos hme] at ha hb
    obtain ⟨-, rfl⟩ := guarded_eq_ok_iff.1 ha
    obtain ⟨-, rfl⟩ := guarded_eq_ok_iff.1 hb
    have hae := hp.ae_cols
    have hbe := hp.be_cols
    have hbe' := hp.be_rows
    refine ⟨rfl, hae, ?_, ?_, ?_, hbe, ?_, ?_⟩
    · intro r hr j hj
      exact Mat.get_above_upper _ _ hr (by omega)
    · intro k hk j hj
      refine (Mat.get_above_lower p.ae _ hk (by omega)).trans ?_
      exact Mat.get_select _ _ hk (by omega)
    · exact congrArg (· + active.length) hbe'
    · intro r hr
      exact Mat.get_above_upper _ _ (by omega) (by omega)
    · intro k hk
      rw [← hbe']
      refine (Mat.get_above_lower p.be _ hk (by omega)).trans ?_
      exact Mat.get_select _ _ hk (by omega)
  · rw [if_neg hme] at ha hb
    obtain rfl := Except.ok.inj ha
    obtain rfl := Except.ok.inj hb
    have hzero : p.me = 0 := by omega
    have hlength : active.length = p.me + active.length := by omega
    refine ⟨hlength, hai, ?_, ?_, hlength, hbi, ?_, ?_⟩
    · intro r hr
      omega
    · intro k hk j hj
      rw [hzero, Nat.zero_add]
      exact Mat.get_select _ _ hk (by omega)
    · intro r hr
      omega
    · intro k hk
      rw [hzero, Nat.zero_add]
      exact Mat.get_select _ _ hk (by omega)

section Rows

variable (h : HoldsRows p active a b)

include h

theorem HoldsRows.lhs_equality (hp : p.WellSized) {r : ℕ} (hr : r < p.me) (x : ℕ → K) :
    a.lhs r x = p.ae.lhs r x := by
  rw [Mat.lhs, Mat.lhs, h.cols, hp.ae_cols]
  exact sum_congr rfl fun j hj => by rw [h.equality r hr j (mem_range.1 hj)]

theorem HoldsRows.lhs_inequality (hp : p.WellSized) {k : ℕ} (hk : k < active.length) (x : ℕ → K) :
    a.lhs (p.me + k) x = p.ai.lhs (active.getD k 0) x := by
  rw [Mat.lhs, Mat.lhs, h.cols, hp.ai_cols]
  exact sum_congr rfl fun j hj => by rw [h.inequality k hk j (mem_range.1 hj)]

theorem HoldsRows.sum_column {j : ℕ} (hj : j < p.n) (l : ℕ → K) :
    ∑ r ∈ range a.rows, a.get r j * l r = ∑ r ∈ range p.me, p.ae.get r j * l r +
      ∑ k ∈ range active.length, p.ai.get (active.getD k 0) j * l (p.me + k) := by
  rw [h.rows, sum_range_add]
  congr 1
  · exact sum_congr rfl fun r hr => by rw [h.equality r (mem_range.1 hr) j hj]
  · exact sum_congr rfl fun k hk => by rw [h.inequality k (mem_range.1 hk) j hj]

end Rows

/-- The target lies on the active rows and its multipliers balance the gradient there. -/
structure SolvesRows (p : QuadraticProgram K) (active : List ℕ) (t : Target K) : Prop where
  size_x : t.x.size = p.n
  balance : ∀ j < p.n, p.q.lhs j t.x.entry + (∑ r ∈ range p.me, p.ae.get r j * t.multipliers.entry r +
    ∑ k ∈ range active.length, p.ai.get (active.getD k 0) j * t.multipliers.entry (p.me + k)) =
      p.c.get j 0
  equality : ∀ r < p.me, p.ae.lhs r t.x.entry = p.be.get r 0
  tight : ∀ k < active.length, p.ai.lhs (active.getD k 0) t.x.entry = p.bound (active.getD k 0)

theorem HoldsRows.solvesRows (h : HoldsRows p active a b) (hp : p.WellSized) {t : Target K}
    (hsize : t.x.size = p.n)
    (hbalance : ∀ j < p.n, p.q.lhs j t.x.entry + ∑ r ∈ range a.rows, a.get r j *
      t.multipliers.entry r = p.c.get j 0)
    (htight : ∀ r < a.rows, a.lhs r t.x.entry = b.get r 0) : SolvesRows p active t := by
  have hrows := h.rows
  refine ⟨hsize, ?_, ?_, ?_⟩
  · intro j hj
    rw [← h.sum_column hj]
    exact hbalance j hj
  · intro r hr
    rw [← h.lhs_equality hp hr, ← h.b_equality r hr]
    exact htight r (by omega)
  · intro k hk
    rw [← h.lhs_inequality hp hk, ← h.b_inequality k hk]
    exact htight (p.me + k) (by omega)

/-! ## The factor of the quadratic term -/

section Factor

variable {s : State K}

theorem Remembers.lhs_solveVec (hs : Remembers p s) (hp : p.WellSized) (hsymm : p.q.IsSymm)
    {g x : Vec K} (hx : s.cholesky.solveVec? g = .ok x) :
    x.size = p.n ∧ ∀ j < p.n, p.q.lhs j x.entry = g.entry j := by
  obtain ⟨l, hl, hx⟩ := Checked.bind_eq_ok_iff.1 hx
  obtain ⟨-, rfl⟩ := guarded_eq_ok_iff.1 hx
  have hfactor : s.cholesky.factor = some l := by
    unfold Cholesky.factor? at hl
    split at hl
    · next hf => rw [hf, Except.ok.inj hl]
    · cases hl
  have h := hs.factor l hfactor
  refine ⟨?_, fun j hj => h.lhs_substitute hsymm hp.q_cols g hj⟩
  rw [Cholesky.size_substitute, Mat.rows, h.shape]
  rfl

theorem Remembers.isPosDef [IsStrictOrderedRing K] (hs : Remembers p s) (hp : p.WellSized)
    (hsymm : p.q.IsSymm) (hsome : s.cholesky.isSolvable = true) : p.q.IsPosDef := by
  obtain ⟨l, hl⟩ := Option.isSome_iff_exists.1 hsome
  exact (hs.factor l hl).isPosDef hsymm hp.q_rows hp.q_cols

theorem Remembers.lhs_minimizer (hs : Remembers p s) (hp : p.WellSized) (hsymm : p.q.IsSymm)
    {m : Vec K} (hm : minimizer? p s = .ok m) : ∀ j < p.n, p.q.lhs j m.entry = p.c.get j 0 := by
  unfold minimizer? at hm
  split at hm
  · next hcached =>
    obtain rfl := Except.ok.inj hm
    exact hs.minimizer _ hcached
  · intro j hj
    rw [(hs.lhs_solveVec hp hsymm hm).2 j hj]
    exact Mat.entry_data hp.c_cols hj

/-- The columns of `Q⁻¹ Aᵀ` solve for the rows of `A`. -/
theorem Remembers.lhs_solve_transpose (hs : Remembers p s) (hp : p.WellSized) (hsymm : p.q.IsSymm)
    (hcols : a.cols = p.n) {w : Mat K} (hw : s.cholesky.solve? a.transpose = .ok w) :
    w.cols = a.rows ∧ ∀ k < a.rows, ∀ i < p.n, p.q.lhs i (fun j => w.get j k) = a.get k i := by
  obtain ⟨l, hl, hw⟩ := Checked.bind_eq_ok_iff.1 hw
  obtain ⟨hrows, rfl⟩ := guarded_eq_ok_iff.1 hw
  have hsize := Mat.size_mapColumns (Cholesky.substitute l) a.transpose
  refine ⟨congrArg Prod.snd hsize, fun k hk i hi => ?_⟩
  have hcolumn : s.cholesky.solveVec? (a.transpose.column k) =
      .ok (Cholesky.substitute l (a.transpose.column k)) := by
    refine Checked.bind_eq_ok_iff.2 ⟨l, hl, guarded_eq_ok_iff.2 ⟨?_, rfl⟩⟩
    rw [Mat.size_column]
    exact hrows
  have hsolve := (hs.lhs_solveVec hp hsymm hcolumn).2 i hi
  rw [Mat.entry_column (show i < a.cols by omega), Mat.get_transpose] at hsolve
  rw [← hsolve]
  refine Mat.lhs_congr fun j hj => ?_
  exact Mat.get_mapColumns _ _ (show j < a.cols by rw [hcols, ← hp.q_cols]; exact hj) hk

end Factor

/-! ## The Schur complement -/

section Schur

variable [IsStrictOrderedRing K] {s : State K} {attempt : Attempt K} {t : Target K}

omit [IsStrictOrderedRing K] in
theorem lhs_mul {w : Mat K} (hcols : w.cols = a.rows) {r : ℕ} (hr : r < a.rows) (l : ℕ → K) :
    (a.mul w).lhs r l = ∑ k ∈ range a.rows, a.lhs r (fun j => w.get j k) * l k := by
  rw [Mat.lhs, show (a.mul w).cols = a.rows from hcols]
  refine sum_congr rfl fun k hk => ?_
  rw [Mat.get_mul hr (by rw [hcols]; exact mem_range.1 hk), Scalar.sumTo_eq_sum, one_mul,
    mul_zero, add_zero, Mat.lhs]

omit [IsStrictOrderedRing K] in
/-- A solution by the Schur complement has factors of it. -/
theorem schur_isSolvable (h : solveBySchur? p s a b = .ok attempt)
    (hsome : attempt.target.isSome = true) :
    ∃ w, s.cholesky.solve? a.transpose = .ok w ∧ (s.lu.compute (a.mul w)).isSolvable = true := by
  obtain ⟨w, hw, h⟩ := Checked.bind_eq_ok_iff.1 h
  obtain ⟨schur, hmul, h⟩ := Checked.bind_eq_ok_iff.1 h
  obtain ⟨lu, hlu, h⟩ := Checked.bind_eq_ok_iff.1 h
  obtain ⟨-, rfl⟩ := guarded_eq_ok_iff.1 hmul
  obtain ⟨-, rfl⟩ := guarded_eq_ok_iff.1 hlu
  split at h
  · next hsolvable => exact ⟨w, hw, hsolvable⟩
  · obtain rfl := Except.ok.inj h
    cases hsome

/-- What a solution by the Schur complement is computed from: the columns `w` of `Q⁻¹ Aᵀ`, the free
minimiser, and the equation `A Q⁻¹ Aᵀ l = A x - b` at that minimiser. -/
theorem schur_equations (hs : Remembers p s) (hp : p.WellSized) (hsymm : p.q.IsSymm)
    (h : HoldsRows p active a b) (hschur : solveBySchur? p s a b = .ok attempt)
    (ht : attempt.target = some t) :
    t.x.size = p.n ∧
    (∀ j < p.n, p.q.lhs j t.x.entry =
      p.c.get j 0 - ∑ r ∈ range a.rows, a.get r j * t.multipliers.entry r) ∧
    ∃ (w : Mat K) (free : Vec K),
      (∀ k < a.rows, ∀ i < p.n, p.q.lhs i (fun j => w.get j k) = a.get k i) ∧
      (∀ j < p.n, p.q.lhs j free.entry = p.c.get j 0) ∧
      ∀ r < a.rows, ∑ k ∈ range a.rows, a.lhs r (fun j => w.get j k) * t.multipliers.entry k =
        a.lhs r free.entry - b.get r 0 := by
  obtain ⟨w, hw, hschur⟩ := Checked.bind_eq_ok_iff.1 hschur
  obtain ⟨schur, hmul, hschur⟩ := Checked.bind_eq_ok_iff.1 hschur
  obtain ⟨lu, hlu, hschur⟩ := Checked.bind_eq_ok_iff.1 hschur
  obtain ⟨-, rfl⟩ := guarded_eq_ok_iff.1 hmul
  obtain ⟨-, rfl⟩ := guarded_eq_ok_iff.1 hlu
  obtain ⟨hwcols, hwsolve⟩ := hs.lhs_solve_transpose hp hsymm h.cols hw
  split at hschur
  · obtain ⟨free, hfree, hschur⟩ := Checked.bind_eq_ok_iff.1 hschur
    obtain ⟨residual, hres, hschur⟩ := Checked.bind_eq_ok_iff.1 hschur
    obtain ⟨l, hl, hschur⟩ := Checked.bind_eq_ok_iff.1 hschur
    obtain ⟨g, hg, hschur⟩ := Checked.bind_eq_ok_iff.1 hschur
    obtain ⟨x, hx, hschur⟩ := Checked.bind_eq_ok_iff.1 hschur
    obtain rfl := Except.ok.inj hschur
    obtain rfl := Option.some.inj ht
    obtain ⟨⟨-, hbsize⟩, rfl⟩ := guarded_eq_ok_iff.1 hres
    obtain ⟨⟨-, hcsize⟩, rfl⟩ := guarded_eq_ok_iff.1 hg
    obtain ⟨hxsize, hxsolves⟩ := hs.lhs_solveVec hp hsymm hx
    obtain ⟨-, hsystem⟩ := LU.lhs_solveVec_compute hs.threshold (a := a.mul w) (n := a.rows) rfl
      hwcols (by rw [Mat.size_transform, hbsize]) hl
    refine ⟨hxsize, fun j hj => ?_, w, free, hwsolve, hs.lhs_minimizer hp hsymm hfree,
      fun r hr => ?_⟩
    · have hlt : j < p.c.data.size := by rw [hcsize, h.cols]; exact hj
      rw [hxsolves j hj, Mat.entry_transformTranspose hlt, Mat.columnDot_eq_sum,
        Mat.entry_data hp.c_cols hj]
      ring
    · have hres := hsystem r hr
      rw [Mat.entry_transform (by rw [hbsize]; exact hr), Mat.rowDot_eq_lhs,
        Mat.entry_data h.b_cols (by rw [h.b_rows, ← h.rows]; exact hr), lhs_mul hwcols hr] at hres
      rw [hres]
      ring
  · obtain rfl := Except.ok.inj hschur
    cases ht

/-- The point that the Schur complement leads to lies on the active rows: it is the free minimiser
less `Q⁻¹ Aᵀ l`, since both have the same image under `Q`. -/
theorem solves_of_schur (hs : Remembers p s) (hp : p.WellSized) (hsymm : p.q.IsSymm)
    (h : HoldsRows p active a b) (hsome : s.cholesky.isSolvable = true)
    (hschur : solveBySchur? p s a b = .ok attempt) (ht : attempt.target = some t) :
    SolvesRows p active t := by
  obtain ⟨hsize, hbalance, w, free, hw, hfree, hsystem⟩ :=
    schur_equations hs hp hsymm h hschur ht
  have hpoint : ∀ j < p.n, t.x.entry j =
      free.entry j - ∑ k ∈ range a.rows, w.get j k * t.multipliers.entry k := by
    have hpd := hs.isPosDef hp hsymm hsome
    rw [← hp.q_rows]
    refine hpd.eq_of_lhs_eq fun i hi => ?_
    rw [hp.q_rows] at hi
    rw [hbalance i hi, Mat.lhs_sub, hfree i hi, Mat.lhs_sum_mul p.q i a.rows w.get]
    congr 1
    exact sum_congr rfl fun k hk => by rw [hw k (mem_range.1 hk) i hi]
  refine h.solvesRows hp hsize (fun j hj => ?_) fun r hr => ?_
  · rw [hbalance j hj, sub_add_cancel]
  · rw [Mat.lhs_congr fun j hj => hpoint j (by rw [← h.cols]; exact hj), Mat.lhs_sub,
      Mat.lhs_sum_mul a r a.rows w.get, hsystem r hr]
    ring

end Schur

/-! ## The bordered system -/

section Kkt

variable {q c : Mat K} {n m : ℕ}

/-- The bordered matrix of `q` and `a`. -/
structure HoldsBordered (q a c b : Mat K) (system : LinearSystem K) (n m : ℕ) : Prop where
  rows : system.matrix.rows = n + m
  cols : system.matrix.cols = n + m
  upper : ∀ r < n, ∀ z, system.matrix.lhs r z = q.lhs r z + ∑ k ∈ range m, a.get k r * z (n + k)
  lower : ∀ k < m, ∀ z, system.matrix.lhs (n + k) z = a.lhs k z
  rhs_size : system.rhs.data.size = n + m
  rhs_upper : ∀ r < n, Vec.entry system.rhs.data r = c.get r 0
  rhs_lower : ∀ k < m, Vec.entry system.rhs.data (n + k) = b.get k 0

/-- Without active rows the matrix and the right-hand side are taken as they are. -/
theorem holdsBordered_of_rows_eq_zero (hq : q.rows = n) (hqcols : q.cols = n) (hc : c.rows = n)
    (hone : c.cols = 1) : HoldsBordered q a c b ⟨q.toGeneral, c.toGeneral⟩ n 0 := by
  have hone' : c.toGeneral.cols = 1 := by rw [Mat.cols_toGeneral, hone]
  have hc' : c.toGeneral.rows = n := by rw [Mat.rows_toGeneral, hc]
  refine ⟨by simp [hq], by simp [hqcols], fun r _ z => ?_, fun k hk => absurd hk k.not_lt_zero, ?_,
    fun r hr => ?_, fun k hk => absurd hk k.not_lt_zero⟩
  · rw [range_zero, sum_empty, add_zero, Mat.lhs_toGeneral]
  · rw [Mat.size_data_of_cols hone', hc', Nat.add_zero]
  · rw [Mat.entry_data hone' (by rw [hc']; exact hr), Mat.get_toGeneral]

theorem holdsBordered {system : LinearSystem K} (hq : q.rows = n) (ha : a.cols = n)
    (hm : a.rows = m) (h : kktSystem? q a c b = .ok system) :
    HoldsBordered q a c b system n m := by
  obtain ⟨⟨hqsize, hcsize, hbsize⟩, rfl⟩ := guarded_eq_ok_iff.1 h
  have hqcols : q.cols = n := ha ▸ congrArg Prod.snd hqsize
  have hcrows : c.rows = n := ha ▸ congrArg Prod.fst hcsize
  have hccols : c.cols = 1 := congrArg Prod.snd hcsize
  have hbrows : b.rows = m := hm ▸ congrArg Prod.fst hbsize
  unfold kktSystem
  by_cases hzero : a.rows = 0
  · rw [if_pos hzero]
    obtain rfl : m = 0 := hm ▸ hzero
    exact holdsBordered_of_rows_eq_zero hq hqcols hcrows hccols
  rw [if_neg hzero]
  have hone : (c.above b).cols = 1 := hccols
  have hrows : (c.above b).rows = n + m := by
    show c.rows + b.rows = n + m
    omega
  refine ⟨?_, ?_, fun r hr z => ?_, fun k hk z => ?_, ?_, fun r hr => ?_, fun k hk => ?_⟩
  · show q.rows + a.rows = n + m
    omega
  · show q.cols + a.rows = n + m
    omega
  · have hupper := Mat.lhs_above_upper (q.beside a.transpose)
      (a.beside (Mat.zeros (.general a.rows a.rows))) (show r < q.rows by omega) z
    rw [hupper, Mat.lhs_beside _ _ (by omega), hqcols, ← hm]
    congr 1
    exact sum_congr rfl fun k _ => by rw [Mat.get_transpose]
  · have hcols : (q.beside a.transpose).cols =
        (a.beside (Mat.zeros (.general a.rows a.rows))).cols :=
      congrArg (· + a.rows) (hqcols.trans ha.symm)
    have hlower := Mat.lhs_above_lower (q.beside a.transpose) _ hcols (show k < a.rows by omega) z
    rw [show (q.beside a.transpose).rows = n from hq] at hlower
    rw [hlower, Mat.lhs_beside _ _ (by omega), add_eq_left]
    exact sum_eq_zero fun i _ => by rw [Mat.get_zeros, zero_mul]
  · rw [Mat.size_data_of_cols hone, hrows]
  · rw [Mat.entry_data hone (by omega), Mat.get_above_upper _ _ (by omega) (by omega)]
  · rw [Mat.entry_data hone (by omega), ← hcrows, Mat.get_above_lower _ _ (by omega) (by omega)]

variable [IsStrictOrderedRing K] {attempt : Attempt K}

omit [IsStrictOrderedRing K] in
/-- The bordered system is set up, and it is solved if it has factors. -/
theorem kkt_cases (hp : p.WellSized) (h : HoldsRows p active a b) {lu : LU K}
    (hkkt : solveByKkt? p lu a b = .ok attempt) :
    ∃ system, HoldsBordered p.q a p.c b system p.n a.rows ∧
      (∀ t, attempt.target = some t → (lu.compute system.matrix).isSolvable = true ∧
        ∃ z, (lu.compute system.matrix).solveVec? system.rhs.data = .ok z ∧
          t = ⟨z.extract 0 p.n, z.extract p.n z.size⟩) ∧
      (attempt.target = none → (lu.compute system.matrix).factors = none) := by
  obtain ⟨system, hsystem, hkkt⟩ := Checked.bind_eq_ok_iff.1 hkkt
  refine ⟨system, holdsBordered hp.q_rows h.cols rfl hsystem, ?_⟩
  obtain ⟨lu', hlu', hkkt⟩ := Checked.bind_eq_ok_iff.1 hkkt
  obtain ⟨-, rfl⟩ := guarded_eq_ok_iff.1 hlu'
  split at hkkt
  · next hsolvable =>
    obtain ⟨z, hz, hkkt⟩ := Checked.bind_eq_ok_iff.1 hkkt
    obtain rfl := Except.ok.inj hkkt
    exact ⟨fun t ht => ⟨hsolvable, z, hz, (Option.some.inj ht).symm⟩, fun ht => by cases ht⟩
  · next hsolvable =>
    obtain rfl := Except.ok.inj hkkt
    rw [LU.isSolvable, Option.isSome_iff_ne_none, not_not] at hsolvable
    exact ⟨fun t ht => (by cases ht), fun _ => hsolvable⟩

theorem solves_of_kkt (hp : p.WellSized) (h : HoldsRows p active a b) {lu : LU K}
    (hlu : 0 ≤ lu.threshold) {t : Target K} (hkkt : solveByKkt? p lu a b = .ok attempt)
    (ht : attempt.target = some t) : SolvesRows p active t := by
  obtain ⟨system, hM, hsome, -⟩ := kkt_cases hp h hkkt
  obtain ⟨-, z, hz, rfl⟩ := hsome t ht
  obtain ⟨hsize, hsolves⟩ := LU.lhs_solveVec_compute hlu hM.rows hM.cols hM.rhs_size hz
  have hx : ∀ j < p.n, Vec.entry (z.extract 0 p.n) j = z.entry j := by
    intro j hj
    have hlt : j < z.size := by omega
    simp [Vec.entry, Array.getD, hj, hlt]
  have hl : ∀ k < a.rows, Vec.entry (z.extract p.n z.size) k = z.entry (p.n + k) := by
    intro k hk
    have hlt : p.n + k < z.size := by omega
    have hlt' : k < z.size - p.n := by omega
    simp [Vec.entry, Array.getD, hlt, hlt']
  refine h.solvesRows hp (by simp [hsize]) (fun j hj => ?_) fun r hr => ?_
  · have hrow := hsolves j (by omega)
    rw [hM.upper j hj, hM.rhs_upper j hj] at hrow
    rw [← hrow, Mat.lhs_congr fun i hi => hx i (by rw [← hp.q_cols]; exact hi)]
    congr 1
    exact sum_congr rfl fun k hk => by rw [hl k (mem_range.1 hk)]
  · have hrow := hsolves (p.n + r) (by omega)
    rw [hM.lower r hr, hM.rhs_lower r hr] at hrow
    rw [← hrow]
    exact Mat.lhs_congr fun i hi => hx i (by rw [← h.cols]; exact hi)

/-- The bordered system of the active rows maps a point other than zero to zero. -/
def IsSingular (p : QuadraticProgram K) (active : List ℕ) : Prop :=
  ∃ x l : ℕ → K, ((∃ j < p.n, x j ≠ 0) ∨ ∃ k < p.me + active.length, l k ≠ 0) ∧
    (∀ j < p.n, p.q.lhs j x + (∑ r ∈ range p.me, p.ae.get r j * l r +
      ∑ k ∈ range active.length, p.ai.get (active.getD k 0) j * l (p.me + k)) = 0) ∧
    (∀ r < p.me, p.ae.lhs r x = 0) ∧
    ∀ k < active.length, p.ai.lhs (active.getD k 0) x = 0

omit [IsStrictOrderedRing K] in
/-- The bordered matrix maps a point to zero if its parts are balanced and leave the rows at zero. -/
theorem HoldsBordered.kernel_iff {system : LinearSystem K}
    (hM : HoldsBordered p.q a p.c b system p.n a.rows) (hp : p.WellSized)
    (h : HoldsRows p active a b) (z : ℕ → K) :
    (∀ i < p.n + a.rows, system.matrix.lhs i z = 0) ↔
      (∀ j < p.n, p.q.lhs j z + (∑ r ∈ range p.me, p.ae.get r j * z (p.n + r) +
        ∑ k ∈ range active.length, p.ai.get (active.getD k 0) j * z (p.n + (p.me + k))) = 0) ∧
      (∀ r < p.me, p.ae.lhs r z = 0) ∧ ∀ k < active.length, p.ai.lhs (active.getD k 0) z = 0 := by
  have hrows := h.rows
  constructor
  · intro hkernel
    refine ⟨fun j hj => ?_, fun r hr => ?_, fun k hk => ?_⟩
    · rw [← h.sum_column hj fun k => z (p.n + k), ← hM.upper j hj]
      exact hkernel j (by omega)
    · rw [← h.lhs_equality hp hr, ← hM.lower r (by omega)]
      exact hkernel (p.n + r) (by omega)
    · rw [← h.lhs_inequality hp hk, ← hM.lower (p.me + k) (by omega)]
      exact hkernel (p.n + (p.me + k)) (by omega)
  · rintro ⟨hbalance, hequality, htight⟩ i hi
    rcases Nat.lt_or_ge i p.n with hlt | hge
    · rw [hM.upper i hlt, h.sum_column hlt fun k => z (p.n + k)]
      exact hbalance i hlt
    · obtain ⟨k, rfl⟩ := Nat.exists_eq_add_of_le hge
      rw [hM.lower k (by omega)]
      rcases Nat.lt_or_ge k p.me with hlt | hge
      · rw [h.lhs_equality hp hlt]
        exact hequality k hlt
      · obtain ⟨i, rfl⟩ := Nat.exists_eq_add_of_le hge
        rw [h.lhs_inequality hp (by omega)]
        exact htight i (by omega)

theorem isSingular_of_kkt (hp : p.WellSized) (h : HoldsRows p active a b) {lu : LU K}
    (hlu : lu.threshold = 0) (hkkt : solveByKkt? p lu a b = .ok attempt)
    (ht : attempt.target = none) : IsSingular p active := by
  obtain ⟨system, hM, -, hnone⟩ := kkt_cases hp h hkkt
  have hrows := h.rows
  obtain ⟨z, ⟨i, hi, hne⟩, hkernel⟩ :=
    LU.exists_kernel_of_factors_eq_none hlu hM.rows hM.cols (hnone ht)
  refine ⟨z, fun k => z (p.n + k), ?_, (hM.kernel_iff hp h z).1 hkernel⟩
  rcases Nat.lt_or_ge i p.n with hlt | hge
  · exact Or.inl ⟨i, hlt, hne⟩
  · refine Or.inr ⟨i - p.n, by omega, ?_⟩
    show z (p.n + (i - p.n)) ≠ 0
    rwa [Nat.add_sub_cancel' hge]

theorem not_isSingular_of_kkt (hp : p.WellSized) (h : HoldsRows p active a b) {lu : LU K}
    (hlu : 0 ≤ lu.threshold) (hkkt : solveByKkt? p lu a b = .ok attempt) {t : Target K}
    (ht : attempt.target = some t) : ¬ IsSingular p active := by
  rintro ⟨x, l, hne, hbalance, hequality, htight⟩
  obtain ⟨system, hM, hsome, -⟩ := kkt_cases hp h hkkt
  obtain ⟨hsolvable, -⟩ := hsome t ht
  have hrows := h.rows
  let z : ℕ → K := fun i => if i < p.n then x i else l (i - p.n)
  have hx : ∀ i < p.n, z i = x i := fun i hi => if_pos hi
  have hl : ∀ k, z (p.n + k) = l k := by
    intro k
    show (if p.n + k < p.n then x (p.n + k) else l (p.n + k - p.n)) = l k
    rw [if_neg (by omega), Nat.add_sub_cancel_left]
  have hlhs : ∀ w : Mat K, w.cols = p.n → ∀ r, w.lhs r z = w.lhs r x := fun w hw r =>
    Mat.lhs_congr fun i hi => hx i (hw ▸ hi)
  have hkernel : ∀ i < p.n + a.rows, system.matrix.lhs i z = 0 := by
    refine (hM.kernel_iff hp h z).2 ⟨fun j hj => ?_, fun r hr => ?_, fun k hk => ?_⟩
    · simp only [hlhs _ hp.q_cols, hl]
      exact hbalance j hj
    · exact (hlhs _ hp.ae_cols r).trans (hequality r hr)
    · exact (hlhs _ hp.ai_cols _).trans (htight k hk)
  have hzero := LU.eq_zero_of_isSolvable hlu hM.rows hM.cols hsolvable hkernel
  rcases hne with ⟨j, hj, hne⟩ | ⟨k, hk, hne⟩
  · exact hne ((hx j hj).symm.trans (hzero j (by omega)))
  · exact hne ((hl k).symm.trans (hzero (p.n + k) (by omega)))

end Kkt

/-! ## Both routes -/

section Routes

variable [IsStrictOrderedRing K] {s : State K} {attempt : Attempt K}

omit [IsStrictOrderedRing K] in
/-- The ways in which a subproblem is solved: by the factor alone if there are no rows, by the Schur
complement, or by the bordered system. -/
theorem subproblem_cases (hp : p.WellSized) (h : subproblem? p s active = .ok attempt) :
    ∃ a b, HoldsRows p active a b ∧
      ((a.rows = 0 ∧ s.cholesky.isSolvable = true ∧ attempt.lu = s.lu ∧
          ∃ x, s.cholesky.solveVec? p.c.data = .ok x ∧ attempt.target = some ⟨x, #[]⟩) ∨
        (s.cholesky.isSolvable = true ∧ solveBySchur? p s a b = .ok attempt ∧
          attempt.target.isSome = true) ∨
        ∃ lu : LU K, lu.threshold = s.lu.threshold ∧ solveByKkt? p lu a b = .ok attempt) := by
  obtain ⟨a, ha, h⟩ := Checked.bind_eq_ok_iff.1 h
  obtain ⟨b, hb, h⟩ := Checked.bind_eq_ok_iff.1 h
  have hrows := holdsRows hp ha hb
  have hcount : (ActiveRows.ofCount p.me).count p active = a.rows := by
    rw [hrows.rows, ActiveRows.ofCount]
    split
    · rfl
    · show active.length = _
      omega
  rw [hcount] at h
  refine ⟨a, b, hrows, ?_⟩
  split at h
  · next hroute =>
    have hsome : s.cholesky.isSolvable = true := (Bool.and_eq_true_iff.1 hroute).2
    split at h
    · next hzero =>
      obtain ⟨x, hx, h⟩ := Checked.bind_eq_ok_iff.1 h
      obtain rfl := Except.ok.inj h
      exact Or.inl ⟨hzero, hsome, rfl, x, hx, rfl⟩
    · obtain ⟨first, hfirst, h⟩ := Checked.bind_eq_ok_iff.1 h
      split at h
      · next htarget =>
        obtain rfl := Except.ok.inj h
        exact Or.inr (Or.inl ⟨hsome, hfirst, htarget⟩)
      · exact Or.inr (Or.inr ⟨first.lu, threshold_solveBySchur hfirst, h⟩)
  · exact Or.inr (Or.inr ⟨s.lu, rfl, h⟩)

/-- The solution of a subproblem lies on the active rows, with multipliers that balance the
gradient, whichever route found it. -/
theorem solves_of_subproblem (hs : Remembers p s) (hp : p.WellSized) (hsymm : p.q.IsSymm)
    (h : subproblem? p s active = .ok attempt) {t : Target K} (ht : attempt.target = some t) :
    SolvesRows p active t := by
  obtain ⟨a, b, hrows, ⟨hzero, -, -, x, hx, htarget⟩ | ⟨hsome, hschur, -⟩ | ⟨lu, hlu, hkkt⟩⟩ :=
    subproblem_cases hp h
  · obtain rfl := Option.some.inj (htarget.symm.trans ht)
    obtain ⟨hsize, hsolves⟩ := hs.lhs_solveVec hp hsymm hx
    refine hrows.solvesRows hp hsize (fun j hj => ?_) fun r hr => by omega
    rw [hzero, range_zero, sum_empty, add_zero, hsolves j hj]
    exact Mat.entry_data hp.c_cols hj
  · exact solves_of_schur hs hp hsymm hrows hsome hschur ht
  · exact solves_of_kkt hp hrows (hlu ▸ hs.threshold) hkkt ht

theorem isSingular_of_subproblem (hp : p.WellSized) (hthreshold : s.lu.threshold = 0)
    (h : subproblem? p s active = .ok attempt) (ht : attempt.target = none) :
    IsSingular p active := by
  obtain ⟨a, b, hrows, ⟨-, -, -, x, -, htarget⟩ | ⟨-, -, hsome⟩ | ⟨lu, hlu, hkkt⟩⟩ :=
    subproblem_cases hp h
  · rw [ht] at htarget
    cases htarget
  · rw [ht] at hsome
    cases hsome
  · exact isSingular_of_kkt hp hrows (hlu.trans hthreshold) hkkt ht

omit [IsStrictOrderedRing K] in
theorem not_hasFlatDirection (hp : p.WellSized) (hpd : p.q.IsPosDef) : ¬ p.HasFlatDirection := by
  rintro ⟨d, ⟨j, hj, hne⟩, hflat, -⟩
  have hform : p.q.bilin d d = 0 := by
    refine sum_eq_zero fun i hi => ?_
    rw [hflat i (hp.q_rows ▸ mem_range.1 hi), mul_zero]
  exact hne (hpd.eq_zero hform j (by rw [hp.q_rows]; exact hj))

omit [IsStrictOrderedRing K] in
theorem isSingular_nil_of_hasFlatDirection (h : p.HasFlatDirection) : IsSingular p [] := by
  obtain ⟨d, hne, hflat, hequality⟩ := h
  refine ⟨d, fun _ => 0, Or.inl hne, fun j hj => ?_, hequality, fun k hk => nomatch hk⟩
  rw [hflat j hj]
  simp

omit [IsStrictOrderedRing K] in
/-- What the bordered system maps to zero is orthogonal to the active rows, so that the quadratic
form is zero there. -/
theorem bilin_eq_zero_of_kernel (hp : p.WellSized) {x l : ℕ → K}
    (hbalance : ∀ j < p.n, p.q.lhs j x + (∑ r ∈ range p.me, p.ae.get r j * l r +
      ∑ k ∈ range active.length, p.ai.get (active.getD k 0) j * l (p.me + k)) = 0)
    (hequality : ∀ r < p.me, p.ae.lhs r x = 0)
    (htight : ∀ k < active.length, p.ai.lhs (active.getD k 0) x = 0) : p.q.bilin x x = 0 := by
  have hterm : ∀ j ∈ range p.n, x j * p.q.lhs j x =
      -(∑ r ∈ range p.me, l r * (p.ae.get r j * x j) +
        ∑ k ∈ range active.length, l (p.me + k) * (p.ai.get (active.getD k 0) j * x j)) := by
    intro j hj
    rw [eq_neg_of_add_eq_zero_left (hbalance j (mem_range.1 hj)), mul_neg, mul_add, mul_sum,
      mul_sum]
    congr 2
    · exact sum_congr rfl fun r _ => by ring
    · exact sum_congr rfl fun k _ => by ring
  rw [Mat.bilin, hp.q_rows, sum_congr rfl hterm, sum_neg_distrib, sum_add_distrib, neg_eq_zero,
    sum_comm, sum_comm (s := range p.n) (t := range active.length)]
  have hae : ∑ r ∈ range p.me, ∑ j ∈ range p.n, l r * (p.ae.get r j * x j) = 0 := by
    refine sum_eq_zero fun r hr => ?_
    rw [← mul_sum, ← hp.ae_cols]
    exact mul_eq_zero_of_right _ (hequality r (mem_range.1 hr))
  have hai : ∑ k ∈ range active.length, ∑ j ∈ range p.n,
      l (p.me + k) * (p.ai.get (active.getD k 0) j * x j) = 0 := by
    refine sum_eq_zero fun k hk => ?_
    rw [← mul_sum, ← hp.ai_cols]
    exact mul_eq_zero_of_right _ (htight k (mem_range.1 hk))
  rw [hae, hai, add_zero]

omit [IsStrictOrderedRing K] in
/-- A positive definite quadratic term is regular when bordered by independent rows. -/
theorem not_isSingular_of_isPosDef (hp : p.WellSized) (hpd : p.q.IsPosDef)
    (hind : ∀ l : ℕ → K, (∀ j < p.n, ∑ r ∈ range p.me, p.ae.get r j * l r +
      ∑ k ∈ range active.length, p.ai.get (active.getD k 0) j * l (p.me + k) = 0) →
        ∀ k < p.me + active.length, l k = 0) : ¬ IsSingular p active := by
  rintro ⟨x, l, hne, hbalance, hequality, htight⟩
  have hx : ∀ j < p.n, x j = 0 := by
    rw [← hp.q_rows]
    exact hpd.eq_zero (bilin_eq_zero_of_kernel hp hbalance hequality htight)
  have hl : ∀ k < p.me + active.length, l k = 0 := by
    refine hind l fun j hj => ?_
    have hrow := hbalance j hj
    rwa [Mat.lhs_congr fun i hi => hx i (hp.q_cols ▸ hi), Mat.lhs_zero, zero_add] at hrow
  rcases hne with ⟨j, hj, hne⟩ | ⟨k, hk, hne⟩
  · exact hne (hx j hj)
  · exact hne (hl k hk)

/-- If the bordered system without inequalities is singular, the point that it maps to zero is a
flat direction: its quadratic form is zero, and the multipliers are zero because the equality
constraints are independent. -/
theorem hasFlatDirection_of_isSingular (hp : p.WellSized) (hsymm : p.q.IsSymm)
    (hpsd : p.q.IsPosSemidef) (hind : Rank.RowsIndependent p.me p.ae.cols p.ae 0 0)
    (h : IsSingular p []) : p.HasFlatDirection := by
  obtain ⟨x, l, hne, hbalance, hequality, -⟩ := h
  have hform : p.q.bilin x x = 0 :=
    bilin_eq_zero_of_kernel hp hbalance hequality fun k hk => nomatch hk
  have hflat : ∀ j < p.n, p.q.lhs j x = 0 := by
    rw [← hp.q_rows]
    exact hpsd.lhs_eq_zero hsymm (hp.q_rows.trans hp.q_cols.symm) hform
  have hl : ∀ r < p.me, l r = 0 := by
    intro r hr
    refine hind l (fun j _ hj => ?_) r (Nat.zero_le r) hr
    have hj : j < p.n := by rwa [← hp.ae_cols]
    have hsum := hbalance j hj
    rw [hflat j hj, zero_add, List.length_nil, range_zero, sum_empty, add_zero] at hsum
    rw [← hsum, ← range_eq_Ico]
    exact sum_congr rfl fun r _ => mul_comm _ _
  rcases hne with hne | ⟨k, hk, hne⟩
  · exact ⟨x, hne, hflat, hequality⟩
  · exact absurd (hl k (by simpa using hk)) hne

/-- Where a flat direction exists, the subproblem without inequalities has no solution. -/
theorem target_eq_none_of_hasFlatDirection (hs : Remembers p s) (hp : p.WellSized)
    (hsymm : p.q.IsSymm) (hflat : p.HasFlatDirection) (h : subproblem? p s [] = .ok attempt) :
    attempt.target = none := by
  obtain ⟨a, b, hrows, ⟨-, hsome, -⟩ | ⟨hsome, -⟩ | ⟨lu, hlu, hkkt⟩⟩ := subproblem_cases hp h
  · exact absurd hflat (not_hasFlatDirection hp (hs.isPosDef hp hsymm hsome))
  · exact absurd hflat (not_hasFlatDirection hp (hs.isPosDef hp hsymm hsome))
  · cases htarget : attempt.target with
    | none => rfl
    | some t =>
      exact absurd (isSingular_nil_of_hasFlatDirection hflat)
        (not_isSingular_of_kkt hp hrows (hlu ▸ hs.threshold) hkkt htarget)

end Routes

end ActiveSet

end QuadProg
