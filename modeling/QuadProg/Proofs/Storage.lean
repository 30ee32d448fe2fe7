import QuadProg.ActiveSet.Solve
import QuadProg.Proofs.Mat.Storage
import QuadProg.Proofs.QuadraticProgram

/-!
# Programs in full storage

A solver does not see how the matrices of a problem are stored. Each of its stages does the same for
a program as for the program with all matrices in full storage, from any state, so whole runs agree:
the result or the refusal, and everything that is reported on the way.

The storage of the linear term is read as a vector. An accepted program has one column there, and
then the storage is that column.
-/

namespace QuadProg

variable {α : Type} [Scalar α]

/-- A pair of constraints and bounds has the same defects in either way of storing. -/
theorem checkPair_map_toGeneral (kind : ConstraintKind) (n : ℕ) (a b : Option (Mat α)) :
    checkPair kind n (a.map Mat.toGeneral) (b.map Mat.toGeneral) = checkPair kind n a b := by
  rcases a with _ | a <;> rcases b with _ | b
  · rfl
  · rfl
  · rfl
  · simp only [Option.map, checkPair, Mat.size_toGeneral, Mat.cols_toGeneral, Mat.rows_toGeneral]

namespace QuadraticProgram

/-- The program with all matrices in full storage. -/
def general (p : QuadraticProgram α) : QuadraticProgram α where
  q := p.q.toGeneral
  c := p.c.toGeneral
  ae := p.ae.toGeneral
  be := p.be.toGeneral
  ai := p.ai.toGeneral
  bi := p.bi.toGeneral
  defects := p.defects

variable (p : QuadraticProgram α)

@[simp] theorem n_general : p.general.n = p.n := p.c.rows_toGeneral

@[simp] theorem me_general : p.general.me = p.me := p.ae.rows_toGeneral

@[simp] theorem mi_general : p.general.mi = p.mi := p.ai.rows_toGeneral

@[simp] theorem origin_general : p.general.origin = p.origin := congrArg Vec.zeros p.n_general

@[simp] theorem isConstrained_general : p.general.isConstrained = p.isConstrained := by
  simp only [isConstrained, me_general, mi_general]

@[simp] theorem fits_general : p.general.Fits ↔ p.Fits := by
  simp only [Fits, n_general, me_general, mi_general]

@[simp] theorem check_general (threshold : α) : p.general.check threshold = p.check threshold := by
  simp only [check, n_general, me_general]
  simp only [general, Mat.size_toGeneral, Mat.rank_toGeneral]

@[simp] theorem bound_general (i : ℕ) : p.general.bound i = p.bound i := p.bi.get_toGeneral i 0

@[simp] theorem bodies?_general (idx : List ℕ) (x : Vec α) :
    p.general.bodies? idx x = p.bodies? idx x := by
  simp only [bodies?, general, Mat.select?_toGeneral]

@[simp] theorem hasBounds_general (idx : List ℕ) : p.general.HasBounds idx ↔ p.HasBounds idx := by
  simp only [HasBounds, general, Mat.contains_toGeneral]

@[simp] theorem slacks?_general (idx : List ℕ) (x : Vec α) :
    p.general.slacks? idx x = p.slacks? idx x := by
  simp only [slacks?, bodies?_general, hasBounds_general, bound_general]

theorem allRows?_toGeneral (bounds : Mat α) (values : Vec α) (holds : α → α → Bool)
    (rows : List ℕ) :
    allRows? bounds.toGeneral values holds rows = allRows? bounds values holds rows := by
  induction rows with
  | nil => rfl
  | cons r rest ih => simp only [allRows?, Mat.get?_toGeneral, ih]

@[simp] theorem isFeasible?_general (x : Vec α) (same : α → α → Bool) :
    p.general.isFeasible? x same = p.isFeasible? x same := by
  simp only [isFeasible?, me_general, mi_general]
  simp only [general, Mat.mulVec?_toGeneral, allRows?_toGeneral]

end QuadraticProgram

namespace ActiveSet

variable (par : Params α) (p : QuadraticProgram α) (s : State α)

/-! ## The start -/

@[simp] theorem isFeasible?_general (x : Vec α) :
    isFeasible? par p.general x = isFeasible? par p x :=
  p.isFeasible?_general x _

@[simp] theorem startMatrix_general : startMatrix p.general = startMatrix p := by
  simp only [startMatrix, QuadraticProgram.n_general, QuadraticProgram.me_general,
    QuadraticProgram.mi_general]
  congr 1
  funext r c
  by_cases hequality : r < p.me
  · simp only [hequality, if_true, QuadraticProgram.general, Mat.get_toGeneral]
  · simp only [hequality, if_false, QuadraticProgram.general, Mat.get_toGeneral]

@[simp] theorem startCost_general (g : Vec α) : startCost p.general g = startCost p g := by
  simp only [startCost, QuadraticProgram.n_general, QuadraticProgram.mi_general]

@[simp] theorem hasStartData_general (g : Vec α) :
    HasStartData p.general g ↔ HasStartData p g := by
  simp only [HasStartData, QuadraticProgram.n_general, QuadraticProgram.me_general,
    QuadraticProgram.mi_general]
  simp only [QuadraticProgram.general, Mat.cols_toGeneral]

@[simp] theorem multipliersOf_general (costs l : Vec α) :
    multipliersOf p.general costs l = multipliersOf p costs l := by
  simp only [multipliersOf, QuadraticProgram.n_general, QuadraticProgram.me_general,
    QuadraticProgram.mi_general]

@[simp] theorem usableOffer_general (offer : Option (Solution α)) :
    usableOffer p.general offer = usableOffer p offer := by
  simp only [usableOffer, QuadraticProgram.n_general]

@[simp] theorem joinTight?_general : joinTight? par p.general s = joinTight? par p s := by
  have hjoin : joinTight par p.general = joinTight par p := by
    funext w iv
    simp only [joinTight, QuadraticProgram.bound_general]
  simp only [joinTight?, QuadraticProgram.mi_general, QuadraticProgram.bodies?_general,
    QuadraticProgram.hasBounds_general, hjoin]

@[simp] theorem trim?_general (fuel : ℕ) : trim? p.general fuel s = trim? p fuel s := by
  induction fuel generalizing s with
  | zero => rfl
  | succ fuel ih =>
    simp only [trim?, QuadraticProgram.n_general, QuadraticProgram.me_general, ih]

@[simp] theorem clearOthers?_general : clearOthers? p.general s = clearOthers? p s := by
  simp only [clearOthers?, clearOthers, QuadraticProgram.me_general]

section LinearTerm

variable {p} (hc : p.c.cols = 1)
include hc

theorem data_general : p.general.c.data = p.c.data := Mat.data_toGeneral hc

theorem startGradient?_general (offer : Option (Vec α)) :
    startGradient? p.general offer = startGradient? p offer := by
  cases offer with
  | none => simp only [startGradient?, data_general hc]
  | some x =>
    simp only [startGradient?, QuadraticProgram.gradient?, QuadraticProgram.gradient,
      data_general hc]
    simp only [QuadraticProgram.general, Mat.rows_toGeneral, Mat.cols_toGeneral,
      Mat.mulVec_toGeneral]

theorem startTableau?_general (offer : Option (Vec α)) :
    startTableau? p.general offer = startTableau? p offer := by
  have hbounds : Memory.above? p.general.be p.general.bi = Memory.above? p.be p.bi := by
    simp only [Memory.above?, QuadraticProgram.general, Mat.above?_toGeneral, Mat.rows_toGeneral,
      Mat.cols_toGeneral]
  simp only [startTableau?, startGradient?_general hc, hasStartData_general, hbounds,
    startMatrix_general, startCost_general, QuadraticProgram.n_general,
    QuadraticProgram.me_general, QuadraticProgram.mi_general]

theorem search?_general (offer : Option (Vec α)) :
    search? par p.general s offer = search? par p s offer := by
  cases offer <;>
    simp only [search?, searchAnew?, searchByProgram?, isFeasible?_general,
      QuadraticProgram.isConstrained_general, startTableau?_general hc,
      QuadraticProgram.n_general, QuadraticProgram.me_general, QuadraticProgram.mi_general,
      QuadraticProgram.origin_general, multipliersOf_general]

theorem initialise?_general (offer : Option (Solution α)) :
    initialise? par p.general offer s = initialise? par p offer s := by
  have hcholesky : s.cholesky.compute? p.general.q = s.cholesky.compute? p.q :=
    s.cholesky.compute?_toGeneral p.q
  simp only [initialise?, prepare?, cacheMinimizer?, hcholesky, search?_general par _ hc,
    usableOffer_general, QuadraticProgram.origin_general, joinTight?_general, trim?_general,
    clearOthers?_general, data_general hc]

end LinearTerm

/-! ## Iterations -/

theorem matrix?_general (k : ActiveRows) (active : List ℕ) :
    k.matrix? p.general active = k.matrix? p active := by
  have hrows : ∀ rows : Mat α, p.ae.toGeneral.above? rows = p.ae.above? rows := fun rows => by
    simp only [Mat.above?, Mat.above, Mat.rows_toGeneral, Mat.cols_toGeneral, Mat.get_toGeneral]
  cases k <;>
    simp only [ActiveRows.matrix?, QuadraticProgram.general, Mat.select?_toGeneral, hrows]

theorem bounds?_general (k : ActiveRows) (active : List ℕ) :
    k.bounds? p.general active = k.bounds? p active := by
  have hrows : ∀ rows : Mat α, p.be.toGeneral.above? rows = p.be.above? rows := fun rows => by
    simp only [Mat.above?, Mat.above, Mat.rows_toGeneral, Mat.cols_toGeneral, Mat.get_toGeneral]
  cases k <;>
    simp only [ActiveRows.bounds?, QuadraticProgram.general, Mat.select?_toGeneral, hrows]

theorem count_general (k : ActiveRows) (active : List ℕ) :
    k.count p.general active = k.count p active := by
  cases k <;> simp only [ActiveRows.count, QuadraticProgram.me_general]

@[simp] theorem stride?_general (x dx : Vec α) (length : α) (others : List ℕ) :
    stride? par p.general x dx length others = stride? par p x dx length others := by
  simp only [stride?, QuadraticProgram.slacks?_general, QuadraticProgram.bodies?_general]

@[simp] theorem takeStep?_general (active : List ℕ) (target : Target α) :
    takeStep? par p.general s active target = takeStep? par p s active target := by
  simp only [takeStep?, move?, adopt?, spread, stride?_general, QuadraticProgram.me_general]

@[simp] theorem exchange?_general : exchange? par p.general s = exchange? par p s := by
  simp only [exchange?, joining?, mostViolated?, leaving?, leaving, QuadraticProgram.me_general,
    QuadraticProgram.mi_general, QuadraticProgram.bound_general, QuadraticProgram.slacks?_general]

section LinearTerm

variable {p} (hc : p.c.cols = 1)
include hc

theorem solveBySchur?_general (a b : Mat α) :
    solveBySchur? p.general s a b = solveBySchur? p s a b := by
  simp only [solveBySchur?, minimizer?, data_general hc]

omit hc in
theorem solveByKkt?_general (lu : LU α) (a b : Mat α) :
    solveByKkt? p.general lu a b = solveByKkt? p lu a b := by
  simp only [solveByKkt?, QuadraticProgram.n_general]
  simp only [QuadraticProgram.general, kktSystem?_toGeneral]

theorem subproblem?_general (active : List ℕ) :
    subproblem? p.general s active = subproblem? p s active := by
  simp only [subproblem?, QuadraticProgram.me_general, QuadraticProgram.n_general, count_general,
    matrix?_general, bounds?_general, data_general hc, solveBySchur?_general s hc,
    solveByKkt?_general]

theorem attempt?_general (retries : ℕ) :
    attempt? par p.general retries s = attempt? par p retries s := by
  induction retries generalizing s with
  | zero =>
    unfold attempt?
    simp only [subproblem?_general s hc, takeStep?_general, isFeasible?_general]
  | succ retries ih =>
    unfold attempt?
    simp only [subproblem?_general s hc, takeStep?_general, isFeasible?_general,
      QuadraticProgram.me_general, ih]

/-- From any state a run does the same. -/
theorem loop?_general (fuel : ℕ) : loop? par p.general fuel s = loop? par p fuel s := by
  induction fuel generalizing s with
  | zero => rfl
  | succ fuel ih => simp only [loop?, iterate?, attempt?_general par _ hc, exchange?_general, ih]

theorem solution?_general : solution? p.general s = solution? p s := by
  simp only [solution?, QuadraticProgram.objective?, QuadraticProgram.objective, data_general hc]
  simp only [QuadraticProgram.general, Mat.rows_toGeneral, Mat.cols_toGeneral,
    Mat.mulVec_toGeneral]

theorem solveValid?_general (offer : Option (Solution α)) :
    solveValid? par p.general offer = solveValid? par p offer := by
  have hstart : start par p.general = start par p := by
    simp only [start, State.init, QuadraticProgram.n_general, QuadraticProgram.me_general,
      QuadraticProgram.mi_general]
  simp only [solveValid?, hstart, initialise?_general par _ hc, iterations?,
    loop?_general par _ hc, solution?_general _ hc]

end LinearTerm

end ActiveSet

namespace QuadraticProgram

theorem solve?_general (par : Params α) (p : QuadraticProgram α) (offer : Option (Solution α)) :
    p.general.solve? par offer = p.solve? par offer := by
  simp only [solve?, fits_general, check_general]
  cases hcheck : p.check par.zeroThreshold with
  | error d => rfl
  | ok u =>
    have hc : p.c.cols = 1 := congrArg Prod.snd (check_eq_ok hcheck).2.1.2
    simp only [ActiveSet.solveValid?_general par hc]

theorem general_ofData (q c : Mat α) (ae be ai bi : Option (Mat α)) :
    (ofData q c ae be ai bi).general =
      ofData q.toGeneral c.toGeneral (ae.map Mat.toGeneral) (be.map Mat.toGeneral)
        (ai.map Mat.toGeneral) (bi.map Mat.toGeneral) := by
  have hgetD : ∀ (a : Option (Mat α)) (rows cols : ℕ),
      (a.getD (Mat.zeros (.general rows cols))).toGeneral =
        (a.map Mat.toGeneral).getD (Mat.zeros (.general rows cols)) := by
    intro a rows cols
    cases a <;> rfl
  simp only [general, ofData, hgetD, Mat.rows_toGeneral, checkPair_map_toGeneral]

end QuadraticProgram

namespace LinearProgram

/-- The program with all matrices in full storage. -/
def general (p : LinearProgram α) : LinearProgram α where
  c := p.c.toGeneral
  ae := p.ae.map Mat.toGeneral
  be := p.be.map Mat.toGeneral
  ai := p.ai.map Mat.toGeneral
  bi := p.bi.map Mat.toGeneral

variable (p : LinearProgram α)

@[simp] theorem n_general : p.general.n = p.n := p.c.rows_toGeneral

theorem entry_map_toGeneral (a : Option (Mat α)) (r c : ℕ) :
    entry (a.map Mat.toGeneral) r c = entry a r c := by
  cases a with
  | none => rfl
  | some a => exact a.get_toGeneral r c

theorem check_general : p.general.check = p.check := by
  simp only [check, n_general]
  simp only [general, Mat.size_toGeneral, checkPair_map_toGeneral]

theorem standardFormOf?_general (me mi : ℕ) :
    p.general.standardFormOf? me mi = p.standardFormOf? me mi := by
  have hform : p.general.standardFormOf me mi = p.standardFormOf me mi := by
    simp only [standardFormOf, n_general]
    simp only [general, entry_map_toGeneral, Mat.get_toGeneral]
  simp only [standardFormOf?, n_general, hform]

theorem solve?_general (par : Params α) : p.general.solve? par = p.solve? par := by
  have hrestore : p.general.restore = p.restore := by
    funext flips s
    simp only [restore, n_general]
  simp only [solve?, solveForm?, check_general, standardFormOf?_general, hrestore]

end LinearProgram

/-- Storing any of the matrices of a problem in full changes nothing: neither the products that the
kernels compute, nor the remarks made when a program is built, nor the answer or refusal of a solver
together with all that it reports. -/
theorem solve?_expandIf (par : Params α) (fq fc fae fbe fai fbi : Bool) :
    (∀ (flag transposed : Bool) (a : Mat α) (s t : α) (x y : Vec α),
      Kernel.transform? transposed (a.expandIf flag) s x t y =
        Kernel.transform? transposed a s x t y) ∧
    (∀ (q c : Mat α) (ae be ai bi : Option (Mat α)) (offer : Option (Solution α)),
      let p := QuadraticProgram.ofData q c ae be ai bi
      let p' := QuadraticProgram.ofData (q.expandIf fq) (c.expandIf fc)
        (ae.map (Mat.expandIf fae)) (be.map (Mat.expandIf fbe))
        (ai.map (Mat.expandIf fai)) (bi.map (Mat.expandIf fbi))
      p'.remarks = p.remarks ∧ p'.solve? par offer = p.solve? par offer) ∧
    ∀ p : LinearProgram α,
      let p' : LinearProgram α :=
        { c := p.c.expandIf fc
          ae := p.ae.map (Mat.expandIf fae)
          be := p.be.map (Mat.expandIf fbe)
          ai := p.ai.map (Mat.expandIf fai)
          bi := p.bi.map (Mat.expandIf fbi) }
      p'.solve? par = p.solve? par := by
  have hmap : ∀ (flag : Bool) (a : Option (Mat α)),
      (a.map (Mat.expandIf flag)).map Mat.toGeneral = a.map Mat.toGeneral := by
    intro flag a
    rw [Option.map_map]
    exact congrArg (a.map ·) (funext fun a => a.toGeneral_expandIf flag)
  refine ⟨fun flag transposed a s t x y => ?_, fun q c ae be ai bi offer => ?_, fun p => ?_⟩
  · cases flag
    · rfl
    · exact a.kernel_transform?_toGeneral s t x y transposed
  · intro p p'
    have hgeneral : p'.general = p.general := by
      simp only [p', p, QuadraticProgram.general_ofData, Mat.toGeneral_expandIf, hmap]
    have hremarks : p'.general.remarks = p.general.remarks := by rw [hgeneral]
    refine ⟨hremarks, ?_⟩
    rw [← p'.solve?_general, hgeneral, p.solve?_general]
  · intro p'
    have hgeneral : p'.general = p.general := by
      simp only [p', LinearProgram.general, Mat.toGeneral_expandIf, hmap]
    rw [← p'.solve?_general, hgeneral, p.solve?_general]

end QuadProg
