import QuadProg.Factor.Buffer
import QuadProg.Proofs.Factor.Definite
import QuadProg.Proofs.Factor.Range
import QuadProg.Proofs.Lossy
import QuadProg.Proofs.Mat.Blocks

/-!
# A buffer answers like a fresh factorisation

Substitution reads an unknown only after it was written, and an entry of the right-hand side only
before it is written over, so it computes the same over the right-hand side as apart from it. Each
stretch of an array of right-hand sides is worked on as if it were alone. A completed factorisation
leaves the factors in the cells of a buffer, and a failed one only lowers its flag, so the answers
of a buffer depend on the last matrix alone.
-/

namespace QuadProg

variable {α : Type} [Scalar α]

/-! ## Substitution in place -/

namespace Triangular

variable {coef : ℕ → ℕ → α} {finish : ℕ → α → α}

@[simp] theorem size_forwardInPlace (b : Vec α) (m : ℕ) :
    (forwardInPlace coef finish b m).size = b.size := by
  induction m with
  | zero => rfl
  | succ m ih => rw [forwardInPlace, Array.size_setIfInBounds, ih]

/-- The first unknowns are written, and the other entries are still those of the right-hand side. -/
theorem entry_forwardInPlace {b : Vec α} {m : ℕ} (hm : m ≤ b.size) (j : ℕ) :
    (forwardInPlace coef finish b m).entry j =
      if j < m then (forward coef finish b m).entry j else b.entry j := by
  induction m generalizing j with
  | zero => rfl
  | succ m ih =>
    have ih := ih (by omega)
    have hdifference :
        Scalar.diffTo ((forwardInPlace coef finish b m).entry m)
            (fun k => coef m k * (forwardInPlace coef finish b m).entry k) m =
          Scalar.diffTo (b.entry m) (fun k => coef m k * (forward coef finish b m).entry k) m := by
      rw [ih, if_neg (Nat.lt_irrefl m)]
      exact Scalar.diffTo_congr fun k hk => by rw [ih, if_pos hk]
    rw [forwardInPlace, hdifference, Vec.entry_setIfInBounds, size_forwardInPlace, forward,
      Vec.entry_push, size_forward, ih]
    grind

theorem forwardInPlace_eq {b : Vec α} {n : ℕ} (hb : b.size = n) :
    forwardInPlace coef finish b n = forward coef finish b n := by
  refine Vec.ext_entry (by simp [hb]) fun j hj => ?_
  rw [size_forwardInPlace, hb] at hj
  rw [entry_forwardInPlace hb.ge, if_pos hj]

/-- When the unknowns from `i` on are written and the entries before are those of the right-hand
side, backward substitution goes on as if it had kept the unknowns in a list. -/
theorem backwardInPlace_known {n i : ℕ} {x y : Vec α} {known : List α} (hsize : x.size = n)
    (hlength : i + known.length = n) (hbefore : ∀ j < i, x.entry j = y.entry j)
    (hknown : ∀ t < known.length, x.entry (i + t) = known.getD t 0) :
    backwardInPlace coef finish n i x = (backward coef finish y i known).toArray := by
  induction i generalizing x known with
  | zero =>
    have hsame : x.size = known.length := by omega
    refine Vec.ext_entry hsame fun t ht => ?_
    have ht : t < known.length := hsame.symm ▸ ht
    have hentry := hknown t ht
    rw [Nat.zero_add, ← Vec.entry_toArray] at hentry
    exact hentry
  | succ i ih =>
    have hdifference :
        Scalar.diffTo (x.entry i) (fun t => coef i (i + 1 + t) * x.entry (i + 1 + t))
            (n - (i + 1)) =
          Scalar.diffTo (y.entry i) (fun t => coef i (i + 1 + t) * known.getD t 0)
            known.length := by
      rw [hbefore i (Nat.lt_succ_self i), show n - (i + 1) = known.length by omega]
      exact Scalar.diffTo_congr fun t ht => by rw [hknown t ht]
    rw [backwardInPlace, backward, hdifference]
    refine ih (Array.size_setIfInBounds.trans hsize) (by rw [List.length_cons]; omega)
      (fun j hj => ?_) fun t ht => ?_
    · rw [Vec.entry_setIfInBounds, if_neg (by omega), hbefore j (by omega)]
    · rw [Vec.entry_setIfInBounds]
      cases t with
      | zero => rw [if_pos ⟨rfl, by omega⟩, List.getD_cons_zero]
      | succ t =>
        have ht : t < known.length := by simpa using ht
        rw [if_neg (by omega), List.getD_cons_succ, ← hknown t ht, Nat.add_right_comm,
          Nat.add_assoc]

theorem backwardInPlace_eq {n : ℕ} {y : Vec α} (hy : y.size = n) :
    backwardInPlace coef finish n n y = (backward coef finish y n []).toArray :=
  backwardInPlace_known hy rfl (fun _ _ => rfl) fun _ ht => nomatch ht

end Triangular

/-! ## One right-hand side -/

namespace LU

omit [Scalar α] in
@[simp] theorem Factors.size_permute (f : Factors α) (b : Vec α) : (f.permute b).size = b.size := by
  unfold Factors.permute
  induction List.range f.matrix.rows generalizing b with
  | nil => rfl
  | cons k rest ih => rw [List.foldl_cons, ih, Array.size_swapIfInBounds]

theorem shape_columns (threshold : α) (ks : List ℕ) (a : Mat α) (pivots : Array ℕ) :
    (columns threshold ks a pivots).matrix.shape = a.shape := by
  induction ks generalizing a pivots with
  | nil => rfl
  | cons k rest ih =>
    rw [columns]
    split
    · exact ih _ _
    · rfl

end LU

theorem Cholesky.shape_columns (threshold : α) (js : List ℕ) (a : Mat α) :
    (columns threshold js a).matrix.shape = a.shape := by
  induction js generalizing a with
  | nil => rfl
  | cons j rest ih =>
    rw [columns]
    split
    · exact ih _
    · rfl

namespace Method

/-- The solution for one right-hand side, kept apart from it. -/
def solution : Method → LU.Factors α → Vec α → Vec α
  | cholesky, f, b => Cholesky.substitute f.matrix b
  | lu, f, b => f.solveVec b

@[simp] theorem size_solution (m : Method) (f : LU.Factors α) (b : Vec α) :
    (m.solution f b).size = f.matrix.rows := by
  cases m with
  | cholesky => exact Cholesky.size_substitute f.matrix b
  | lu => exact LU.Factors.size_solveVec f b

/-- Substitution in place computes the solution. -/
theorem substitute_eq (m : Method) {f : LU.Factors α} {b : Vec α} (hb : b.size = f.matrix.rows) :
    m.substitute f b = m.solution f b := by
  cases m with
  | cholesky =>
    simp only [substitute, solution, Cholesky.substitute]
    rw [Triangular.forwardInPlace_eq hb,
      Triangular.backwardInPlace_eq (Triangular.size_forward _ _ _ _)]
  | lu =>
    have hpermuted : (f.permute b).size = f.matrix.rows := by rw [LU.Factors.size_permute, hb]
    simp only [substitute, solution, LU.Factors.solveVec]
    rw [Triangular.forwardInPlace_eq hpermuted,
      Triangular.backwardInPlace_eq (Triangular.size_forward _ _ _ _)]

theorem shape_factorise (m : Method) (a : Mat α) (pivots : Array ℕ) (relative : α) :
    (m.factorise a pivots relative).matrix.shape = a.shape := by
  cases m with
  | cholesky => exact Cholesky.shape_columns _ _ a
  | lu => exact LU.shape_columns _ _ a pivots

end Method

/-! ## Right-hand sides in one array -/

theorem Kernel.stretches_mul {n : ℕ} (hn : 0 < n) (count : ℕ) :
    stretches n (n * count) = count := by
  rw [stretches, Nat.add_sub_assoc hn, Nat.mul_add_div hn, Nat.div_eq_of_lt (by omega),
    Nat.add_zero]

namespace Mat

theorem column_mapColumns {f : Vec α → Vec α} {a : Mat α} {c : ℕ} (hc : c < a.cols)
    (hf : (f (a.column c)).size = a.rows) : (a.mapColumns f).column c = f (a.column c) := by
  have hrows : (a.mapColumns f).rows = a.rows := congrArg Prod.fst (size_mapColumns f a)
  refine Vec.ext_entry (by rw [size_column, hrows, hf]) fun r hr => ?_
  rw [size_column] at hr
  rw [entry_column hr, get_mapColumns f a (hr.trans_eq hrows) hc]

theorem shape_mapColumns (f : Vec α → Vec α) (a : Mat α) :
    (a.mapColumns f).shape = .general a.rows a.cols := by
  unfold mapColumns
  split
  · exact shape_toGeneral a
  · rfl

end Mat

namespace Buffer

variable {f : Buffer α} {g : LU.Factors α}

/-- The buffer holds the given factors of a square matrix. -/
structure Holds (f : Buffer α) (g : LU.Factors α) : Prop where
  solvable : f.solvable = true
  shape : g.matrix.shape = .general f.n f.n
  cells : f.cells = g.matrix.data
  pivots : f.pivots = g.pivots
  inRange : f.method = .lu → g.InRange f.n

omit [Scalar α] in
theorem Holds.rows (h : f.Holds g) : g.matrix.rows = f.n := by
  rw [Mat.rows, h.shape]
  rfl

omit [Scalar α] in
theorem Holds.checkPivots (h : f.Holds g) (count : ℕ) :
    f.method.checkPivots f.n count f.pivots = .ok () := by
  cases hm : f.method with
  | cholesky => rfl
  | lu =>
    have hrange := h.inRange hm
    rw [h.pivots, Method.checkPivots, require_eq_ok hrange.size_pivots]
    exact require_eq_ok (Or.inr hrange.pivots_lt)

/-- Each right-hand side is solved for as if it were alone. -/
theorem Holds.solveIn? (h : f.Holds g) {count : ℕ} {data : Vec α}
    (hdata : data.size = f.n * count) :
    ∃ x, f.solveIn? count data = .ok x ∧ x.size = data.size ∧
      ∀ k < count, Kernel.stretch x f.n k = f.method.solution g (Kernel.stretch data f.n k) := by
  let width := max f.n 1
  let stretches := min count (Kernel.stretches width data.size)
  let work (_ : ℕ) (b : Vec α) : Vec α := f.method.substitute g b
  have hsolved : f.solveIn? count data = .ok (Kernel.pieces work width stretches data) := by
    rw [Buffer.solveIn?, h.cells, Mat.ofArray?_data h.shape]
    change ((require (data.size = f.n * count) .sizeMismatch).bind fun _ => _) = _
    rw [require_eq_ok hdata]
    change ((f.method.checkPivots f.n stretches f.pivots).bind fun _ => _) = _
    rw [h.checkPivots, h.pivots]
    rfl
  refine ⟨_, hsolved, ?_⟩
  have hend : ∀ k < count, (k + 1) * f.n ≤ data.size := fun k hk => by
    rw [hdata, Nat.mul_comm f.n]
    exact Nat.mul_le_mul_right f.n hk
  rcases Nat.eq_zero_or_pos f.n with hzero | hpos
  · -- An empty system has an empty array, so nothing is cut from it.
    have hnone : stretches = 0 := by
      have hempty : data.size = 0 := by rw [hdata, hzero, Nat.zero_mul]
      have hcut : Kernel.stretches width data.size = 0 := by
        rw [hempty]
        simp only [width, hzero]
        rfl
      simp only [stretches, hcut, Nat.min_zero]
    rw [hnone]
    refine ⟨rfl, fun k hk => Vec.ext_entry ?_ fun r hr => ?_⟩
    · rw [Kernel.pieces, Kernel.size_stretch (hend k hk), Method.size_solution, h.rows]
    · rw [Kernel.pieces, Kernel.size_stretch (hend k hk), hzero] at hr
      exact absurd hr (Nat.not_lt_zero r)
  · have hwidth : width = f.n := max_eq_left hpos
    have hall : stretches = count := by
      simp only [stretches, hwidth, hdata, Kernel.stretches_mul hpos, min_self]
    rw [hall, hwidth]
    have hsubstitute : ∀ k (b : Vec α), b.size = f.n → work k b = f.method.solution g b :=
      fun _ _ hb => f.method.substitute_eq (hb.trans h.rows.symm)
    have hwork : ∀ k (b : Vec α), b.size = f.n → (work k b).size = f.n := by
      intro k b hb
      rw [hsubstitute k b hb, Method.size_solution, h.rows]
    have hfits : count * f.n ≤ data.size := by rw [hdata, Nat.mul_comm]
    refine ⟨(Kernel.pieces_spec hwork hfits).1, fun k hk => ?_⟩
    rw [Kernel.stretch_pieces hwork hfits hk, hsubstitute k _ (Kernel.size_stretch (hend k hk))]

theorem Holds.solveVec? (h : f.Holds g) (b : Vec α) :
    f.solveVec? b = guarded (b.size = f.n) .sizeMismatch (f.method.solution g b) := by
  rw [Buffer.solveVec?, require_eq_ok h.solvable]
  by_cases hb : b.size = f.n
  · obtain ⟨x, hx, hsize, hstretches⟩ := h.solveIn? (hb.trans (Nat.mul_one f.n).symm)
    have hwhole : ∀ y : Vec α, y.size = f.n → Kernel.stretch y f.n 0 = y := by
      intro y hy
      rw [Kernel.stretch, Nat.zero_mul, Nat.zero_add, Nat.one_mul, ← hy, Array.extract_size]
    have hsolution := hstretches 0 Nat.zero_lt_one
    rw [hwhole x (hsize.trans hb), hwhole b hb] at hsolution
    rw [guarded_eq_ok hb, ← hsolution, ← hx, require_eq_ok hb]
    rfl
  · simp [require, guarded, hb, bind, Except.bind]

theorem Holds.solve? (h : f.Holds g) (b : Mat α) :
    f.solve? b = guarded (b.rows = f.n) .sizeMismatch (b.mapColumns (f.method.solution g)) := by
  rw [Buffer.solve?, require_eq_ok h.solvable]
  by_cases hb : b.rows = f.n
  · have hfull : b.toGeneral.shape = .general f.n b.cols := by rw [b.shape_toGeneral, hb]
    have hdata : b.toGeneral.data.size = f.n * b.toGeneral.cols := by
      rw [Mat.size_data, hfull, Mat.cols_toGeneral]
      rfl
    obtain ⟨x, hx, hsize, hstretches⟩ := h.solveIn? hdata
    have hlength : x.size = b.toGeneral.shape.length := hsize.trans b.toGeneral.size_data
    let solved : Mat α := ⟨b.toGeneral.shape, x, hlength⟩
    have hcolumns : solved = b.mapColumns (f.method.solution g) := by
      refine Mat.ext_column hfull (by rw [Mat.shape_mapColumns, hb]) fun c hc => ?_
      have hsolution : (f.method.solution g (b.column c)).size = b.rows := by
        rw [Method.size_solution, h.rows, hb]
      calc solved.column c = Kernel.stretch x f.n c := Mat.column_eq_stretch (a := solved) hfull hc
        _ = f.method.solution g (Kernel.stretch b.toGeneral.data f.n c) :=
            hstretches c (hc.trans_eq (Mat.cols_toGeneral b).symm)
        _ = f.method.solution g (b.column c) := by
            rw [← Mat.column_eq_stretch hfull hc, Mat.column_toGeneral]
        _ = (b.mapColumns (f.method.solution g)).column c :=
            (Mat.column_mapColumns hc hsolution).symm
    rw [guarded_eq_ok hb, ← hcolumns]
    change ((require (b.toGeneral.rows = f.n) .sizeMismatch).bind fun _ => _) = _
    rw [require_eq_ok (show b.toGeneral.rows = f.n by simpa using hb)]
    change ((f.solveIn? b.toGeneral.cols b.toGeneral.data).bind fun _ => _) = _
    rw [hx]
    exact dif_pos hlength
  · simp [require, guarded, hb, bind, Except.bind]

end Buffer

/-! ## Answers -/

namespace Method

/-- The factors of a square matrix, if it has them. -/
def factors (m : Method) (a : Mat α) (relative : α) : Option (LU.Factors α) :=
  let e := m.factorise a.toGeneral (m.pivotCells a.rows) relative
  if e.complete then some ⟨e.matrix, e.pivots⟩ else none

/-- The factors that there are, or the refusal. -/
def available? : Option (LU.Factors α) → Checked (LU.Factors α)
  | some g => .ok g
  | none => .error .notFactored

/-- The answers of a place with the given factors. -/
def answersOf (m : Method) (factors : Option (LU.Factors α)) : Answers α where
  isSolvable := factors.isSome
  solve? b := do
    let g ← available? factors
    guarded (b.rows = g.matrix.rows) .sizeMismatch (b.mapColumns (m.solution g))
  solveVec? b := do
    let g ← available? factors
    guarded (b.size = g.matrix.rows) .sizeMismatch (m.solution g b)

end Method

theorem Cholesky.answers_eq (f : Cholesky α) :
    f.answers = Method.cholesky.answersOf (f.factor.map fun l => ⟨l, #[]⟩) := by
  cases f with
  | mk threshold factor => cases factor <;> rfl

theorem Cholesky.factor_compute (f : Cholesky α) (a : Mat α) :
    (f.compute a).factor.map (fun l => ⟨l, #[]⟩) = Method.cholesky.factors a f.threshold :=
  apply_ite _ _ _ _

theorem LU.answers_eq (f : LU α) : f.answers = Method.lu.answersOf f.factors := by
  cases f with
  | mk threshold factors => cases factors <;> rfl

namespace Buffer

variable {f : Buffer α}

theorem Holds.answers {g : LU.Factors α} (h : f.Holds g) :
    f.answers = f.method.answersOf (some g) := by
  have hsolve : f.solve? = (f.method.answersOf (some g)).solve? := by
    funext b
    rw [h.solve?, ← h.rows]
    rfl
  have hsolveVec : f.solveVec? = (f.method.answersOf (some g)).solveVec? := by
    funext b
    rw [h.solveVec?, ← h.rows]
    rfl
  rw [Buffer.answers, h.solvable, hsolve, hsolveVec]
  rfl

/-- A buffer whose last factorisation failed refuses to solve, whatever its cells hold. -/
theorem answers_of_failure (h : f.solvable = false) : f.answers = f.method.answersOf none := by
  have hrefused : ∀ {β : Type} (next : Checked β),
      (do require (f.solvable = true) .notFactored; next) = .error .notFactored := by
    intro β next
    simp [require, h, bind, Except.bind]
  have hsolve : f.solve? = (f.method.answersOf none).solve? := by
    funext b
    exact hrefused _
  have hsolveVec : f.solveVec? = (f.method.answersOf none).solveVec? := by
    funext b
    exact hrefused _
  rw [Buffer.answers, h, hsolve, hsolveVec]
  rfl

/-- A buffer takes any square matrix, and what it answers then is settled by this matrix. -/
theorem compute?_spec (f : Buffer α) {a : Mat α} (ha : a.rows = a.cols) :
    ∃ g, f.compute? a = .ok g ∧ g.method = f.method ∧ g.threshold = f.threshold ∧
      g.answers = f.method.answersOf (f.method.factors a f.threshold) := by
  let e := f.method.factorise a.toGeneral (f.method.pivotCells a.rows) f.threshold
  let g : Buffer α :=
    { f with n := a.rows, cells := e.matrix.data, pivots := e.pivots, solvable := e.complete }
  have hshape : a.toGeneral.shape = .general a.rows a.rows := by rw [a.shape_toGeneral, ← ha]
  have hcompute : f.compute? a = .ok g := by
    rw [compute?, require_eq_ok ha]
    change ((Mat.ofArray? (.general a.rows a.rows) a.toGeneral.data).bind fun _ => _) = _
    rw [Mat.ofArray?_data hshape]
    rfl
  refine ⟨g, hcompute, rfl, rfl, ?_⟩
  by_cases hcomplete : e.complete = true
  · have hholds : g.Holds ⟨e.matrix, e.pivots⟩ := by
      refine ⟨hcomplete, (f.method.shape_factorise _ _ _).trans hshape, rfl, rfl, fun hm => ?_⟩
      have hm : f.method = .lu := hm
      have he : e = LU.decompose a.toGeneral (Array.replicate a.rows 0) f.threshold := by
        simp only [e, hm, Method.factorise, Method.pivotCells]
      have hfactors : ((⟨f.threshold, none⟩ : LU α).compute a).factors =
          some ⟨e.matrix, e.pivots⟩ := by
        rw [he] at hcomplete ⊢
        exact if_pos hcomplete
      exact LU.inRange_of_compute hfactors
    rw [hholds.answers, Method.factors, if_pos hcomplete]
  · rw [answers_of_failure (Bool.eq_false_iff.2 hcomplete), Method.factors, if_neg hcomplete]

end Buffer

omit [Scalar α] in
/-- When each matrix settles the answers that follow it, a sequence ends in the answers of its last
matrix. -/
theorem answers_of_foldlM {σ : Type} {Keeps : σ → Prop} {step : σ → Mat α → Checked σ}
    {answers : σ → Answers α} {last : Mat α → Answers α}
    (hstep : ∀ s a, Keeps s → a.rows = a.cols →
      ∃ t, step s a = .ok t ∧ Keeps t ∧ answers t = last a)
    {s : σ} (hs : Keeps s) {earlier : List (Mat α)} {a : Mat α}
    (hearlier : ∀ b ∈ earlier, b.rows = b.cols) (ha : a.rows = a.cols) :
    ((earlier ++ [a]).foldlM step s).map answers = .ok (last a) := by
  induction earlier generalizing s with
  | nil =>
    obtain ⟨t, ht, -, hanswers⟩ := hstep s a hs ha
    rw [List.nil_append, List.foldlM_cons, ht, ← hanswers]
    rfl
  | cons b rest ih =>
    obtain ⟨hb, hrest⟩ := List.forall_mem_cons.1 hearlier
    obtain ⟨t, ht, hkeeps, -⟩ := hstep s b hs hb
    rw [List.cons_append, List.foldlM_cons, ht]
    exact ih hkeeps hrest

namespace Method

theorem answers?_eq (m : Method) (relative : α) {earlier : List (Mat α)} {a : Mat α}
    (hearlier : ∀ b ∈ earlier, b.rows = b.cols) (ha : a.rows = a.cols) :
    m.answers? relative (earlier ++ [a]) = .ok (m.answersOf (m.factors a relative)) := by
  cases m with
  | cholesky =>
    have hstep : ∀ (f : Cholesky α) (b : Mat α), f.threshold = relative → b.rows = b.cols →
        ∃ t, f.compute? b = .ok t ∧ t.threshold = relative ∧
          t.answers = cholesky.answersOf (cholesky.factors b relative) := by
      rintro f b rfl hb
      refine ⟨f.compute b, guarded_eq_ok hb, rfl, ?_⟩
      rw [Cholesky.answers_eq, f.factor_compute b]
    exact answers_of_foldlM hstep rfl hearlier ha
  | lu =>
    have hstep : ∀ (f : LU α) (b : Mat α), f.threshold = relative → b.rows = b.cols →
        ∃ t, f.compute? b = .ok t ∧ t.threshold = relative ∧
          t.answers = lu.answersOf (lu.factors b relative) := by
      rintro f b rfl hb
      exact ⟨f.compute b, guarded_eq_ok hb, rfl, (f.compute b).answers_eq⟩
    exact answers_of_foldlM hstep rfl hearlier ha

theorem bufferAnswers?_eq (m : Method) (relative : α) {earlier : List (Mat α)} {a : Mat α}
    (hearlier : ∀ b ∈ earlier, b.rows = b.cols) (ha : a.rows = a.cols) :
    m.bufferAnswers? relative (earlier ++ [a]) = .ok (m.answersOf (m.factors a relative)) := by
  have hstep : ∀ (f : Buffer α) (b : Mat α), f.method = m ∧ f.threshold = relative →
      b.rows = b.cols → ∃ t, f.compute? b = .ok t ∧ (t.method = m ∧ t.threshold = relative) ∧
        t.answers = m.answersOf (m.factors b relative) := by
    rintro f b ⟨rfl, rfl⟩ hb
    obtain ⟨g, hg, hmethod, hthreshold, hanswers⟩ := f.compute?_spec hb
    exact ⟨g, hg, ⟨hmethod, hthreshold⟩, hanswers⟩
  exact answers_of_foldlM hstep ⟨rfl, rfl⟩ hearlier ha

theorem isSolvable_answersOf (m : Method) (a : Mat α) (relative : α) :
    (m.answersOf (m.factors a relative)).isSolvable =
      (m.factorise a.toGeneral (m.pivotCells a.rows) relative).complete := by
  rw [factors]
  split
  · next hcomplete => exact hcomplete.symm
  · next hcomplete => exact (Bool.eq_false_iff.2 hcomplete).symm

theorem rows_of_factors {m : Method} {a : Mat α} {relative : α} {g : LU.Factors α}
    (h : m.factors a relative = some g) : g.matrix.rows = a.rows := by
  rw [factors] at h
  split at h
  · obtain rfl := Option.some.inj h
    rw [Mat.rows, shape_factorise, ← Mat.rows, Mat.rows_toGeneral]
  · cases h

/-- Columns and matrices do not influence one another. A place for Cholesky or LU factors and the
buffer that implements it are given square matrices of any sizes, factored or not; they then answer
like a place that was given only the last one. If its factorisation was completed, the columns of a
solution, as many as there are, are the solutions for the columns of the right-hand side, also for
an empty system. If it failed, nothing is solved. -/
theorem answers_independent (α : Type) [Scalar α] (m : Method) (relative : α)
    (earlier : List (Mat α)) (a : Mat α) (hearlier : ∀ b ∈ earlier, b.rows = b.cols)
    (ha : a.rows = a.cols) :
    ∃ answers, m.answers? relative (earlier ++ [a]) = .ok answers ∧
      m.bufferAnswers? relative (earlier ++ [a]) = .ok answers ∧
      m.answers? relative [a] = .ok answers ∧ m.bufferAnswers? relative [a] = .ok answers ∧
      answers.isSolvable = (m.factorise a.toGeneral (m.pivotCells a.rows) relative).complete ∧
      (answers.isSolvable = true → ∀ b : Mat α, b.rows = a.rows →
        ∃ x, answers.solve? b = .ok x ∧ x.shape = .general a.rows b.cols ∧
          ∀ c < b.cols, ∃ v y, b.toGeneral.column? c = .ok v ∧ answers.solveVec? v = .ok y ∧
            x.column? c = .ok y) ∧
      (answers.isSolvable = false → ∀ (b : Mat α) (v : Vec α),
        answers.solve? b = .error .notFactored ∧ answers.solveVec? v = .error .notFactored) := by
  have hnone : ∀ b ∈ ([] : List (Mat α)), b.rows = b.cols := fun b hb => nomatch hb
  refine ⟨m.answersOf (m.factors a relative), m.answers?_eq relative hearlier ha,
    m.bufferAnswers?_eq relative hearlier ha, m.answers?_eq relative hnone ha,
    m.bufferAnswers?_eq relative hnone ha, m.isSolvable_answersOf a relative, ?_, ?_⟩
  · intro hsolvable b hb
    obtain ⟨g, hg⟩ := Option.isSome_iff_exists.1 hsolvable
    have hrows := rows_of_factors hg
    have hshape : (b.mapColumns (m.solution g)).shape = .general a.rows b.cols := by
      rw [Mat.shape_mapColumns, hb]
    rw [hg]
    refine ⟨b.mapColumns (m.solution g), guarded_eq_ok (hb.trans hrows.symm), hshape,
      fun c hc => ?_⟩
    have hsize : (b.column c).size = g.matrix.rows := by rw [Mat.size_column, hb, hrows]
    have hsolution : (m.solution g (b.column c)).size = b.rows := by rw [size_solution, hrows, hb]
    refine ⟨b.column c, m.solution g (b.column c), b.column?_toGeneral hc, guarded_eq_ok hsize, ?_⟩
    have hfull : (b.mapColumns (m.solution g)).shape.isPacked = false := by rw [hshape]; rfl
    have hcols : c < (b.mapColumns (m.solution g)).cols := by
      rw [Mat.cols, hshape]
      exact hc
    rw [← Mat.column_mapColumns hc hsolution, Mat.column?, require_eq_ok hfull]
    exact guarded_eq_ok hcols
  · intro hfailed b v
    have hnofactors : m.factors a relative = none :=
      Option.not_isSome_iff_eq_none.1 (Bool.eq_false_iff.1 hfailed)
    rw [hnofactors]
    exact ⟨rfl, rfl⟩

/-! ## A sample -/

/-- A matrix that both methods factorise. -/
def regular : Mat Lossy := ⟨.packed 2, #[.num 1, .num 0, .num 1], rfl⟩

/-- A larger matrix whose factorisation fails after its first column. -/
def broken : Mat Lossy :=
  ⟨.general 3 3, #[.num 1, .num 0, .num 0, .num 0, .nan, .num 0, .num 0, .num 0, .num 1], rfl⟩

/-- Two right-hand sides, the first one with an entry that is no number. -/
def sides : Mat Lossy := ⟨.general 2 2, #[.nan, .num 1, .num 2, .num 3], rfl⟩

theorem answers_independent_broken :
    (∃ answers x v y, lu.bufferAnswers? (.num 0) [regular, broken, regular] = .ok answers ∧
      answers.isSolvable = true ∧ answers.solve? sides = .ok x ∧ sides.column? 1 = .ok v ∧
      answers.solveVec? v = .ok y ∧ x.column? 1 = .ok y) ∧
    ∃ answers, cholesky.answers? (.num 0) [regular, broken] = .ok answers ∧
      answers.isSolvable = false ∧ answers.solve? sides = .error .notFactored := by
  constructor
  · obtain ⟨answers, -, hanswers, -, -, hsolvable, hcolumns, -⟩ :=
      answers_independent Lossy lu (.num 0) [regular, broken] regular (by decide) rfl
    have hsolvable : answers.isSolvable = true := hsolvable.trans (by decide +kernel)
    obtain ⟨x, hx, -, hsides⟩ := hcolumns hsolvable sides rfl
    obtain ⟨v, y, hv, hy, hcolumn⟩ := hsides 1 (by decide)
    exact ⟨answers, x, v, y, hanswers, hsolvable, hx, hv, hy, hcolumn⟩
  · obtain ⟨answers, hanswers, -, -, -, hsolvable, -, hrefused⟩ :=
      answers_independent Lossy cholesky (.num 0) [regular] broken (by decide) rfl
    have hfailed : answers.isSolvable = false := hsolvable.trans (by decide +kernel)
    exact ⟨answers, hanswers, hfailed, (hrefused hfailed sides #[]).1⟩

end Method

end QuadProg
