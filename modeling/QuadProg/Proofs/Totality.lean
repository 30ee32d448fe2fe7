import QuadProg.Proofs.ActiveSet.Totality
import QuadProg.Proofs.Factor.Range
import QuadProg.Proofs.LinearProgram
import QuadProg.Proofs.Lossy
import QuadProg.Proofs.Mat.Storage
import QuadProg.Proofs.Tableau.Range

/-!
# Every problem has an answer

Whatever the sizes and entries of a problem, the parameters and the offered solution are, a solver
returns a solution or a rejection, as long as the bounds of the constraints are numbers and there is
room for what it makes. Of the scalars no more is used than the signs of numbers.

The tableau of a program has more entries than the square of its number of rows, and constraints
without columns may have any number of rows; so an accepted program whose data take little room may
be refused. A quadratic program is refused as well without room for the state of the method, also if
a check would have rejected it.
-/

namespace QuadProg

/-- The sign of a number can be told. A value that differs from itself is not a number. -/
class Scalar.SignLaws (α : Type) [Scalar α] : Prop where
  neg_nonneg : ∀ v : α, v < 0 → 0 ≤ -v
  nonneg : ∀ v : α, (v == v) = true → ¬ v < 0 → 0 ≤ v

instance {K : Type} [Field K] [LinearOrder K] [IsStrictOrderedRing K] [Exact K] :
    Scalar.SignLaws K :=
  ⟨fun _ h => neg_nonneg.2 h.le, fun _ _ h => not_lt.1 h⟩

variable {α : Type} [Scalar α]

namespace Mat

/-- All entries are numbers. -/
def HasNumbers (a : Mat α) : Prop := ∀ v ∈ a.data, (v == v) = true

instance (a : Mat α) : Decidable a.HasNumbers :=
  inferInstanceAs (Decidable (∀ v ∈ a.data, (v == v) = true))

theorem HasNumbers.get {a : Mat α} (h : a.HasNumbers) {r c : ℕ} (hrc : a.shape.Contains r c) :
    (a.get r c == a.get r c) = true :=
  h _ (mem_data_iff.2 ⟨r, c, hrc, rfl⟩)

end Mat

/-- A row with a number for its right-hand side gets one that is not negative. -/
theorem get_signedRows_b_nonneg_of_number [Scalar.SignLaws α] {a b : Mat α} {m r : ℕ}
    (hb : b.shape = .general m 1) (hr : r < m) (h : (b.get r 0 == b.get r 0) = true) :
    0 ≤ (signedRows a b).b.get r 0 := by
  rw [get_signedRows_b_eq_ite hb hr]
  split
  · next hneg => exact Scalar.SignLaws.neg_nonneg _ hneg
  · next hneg => exact Scalar.SignLaws.nonneg _ h hneg

namespace QuadraticProgram

open ActiveSet

variable {p : QuadraticProgram α}

theorem WellSized.hasSignedBounds [Scalar.SignLaws α] (hp : p.WellSized) (hbe : p.be.HasNumbers)
    (hbi : p.bi.HasNumbers) : HasSignedBounds p := by
  intro r hr
  refine get_signedRows_b_nonneg_of_number (shape_bounds hp) hr ?_
  have hcol : 0 < p.be.cols := Nat.one_pos.trans_eq hp.be_cols.symm
  by_cases hequality : r < p.be.rows
  · rw [Mat.get_above_upper _ _ hequality hcol]
    exact hbe.get ⟨hequality, hcol⟩
  · obtain ⟨i, rfl⟩ := Nat.exists_eq_add_of_le (not_lt.1 hequality)
    have hi : i < p.bi.rows := by
      have := hp.be_rows
      have := hp.bi_rows
      omega
    rw [Mat.get_above_lower _ _ hi hcol]
    exact hbi.get ⟨hi, Nat.one_pos.trans_eq hp.bi_cols.symm⟩

theorem hasNumbers_getD {b : Option (Mat α)} (h : ∀ b' ∈ b, b'.HasNumbers) :
    (b.getD (Mat.zeros (.general 0 1))).HasNumbers := by
  cases b with
  | none =>
    intro v hv
    cases (Array.mem_replicate.1 hv).1 (Nat.zero_mul 1)
  | some b => exact h b rfl

variable (par : Params α) (q c : Mat α) {ae be ai bi : Option (Mat α)} (offer : Option (Solution α))

/-- There is room for a run from the offered solution. The solver asks for the room of the state and
of the linear program. A list of the inequalities and the systems of the iterations outgrow the
memory only with `2 ^ 59` inequalities, with `2 ^ 28` variables, which give a quadratic term beyond
any machine, or with a limit of `2 ^ 29` iterations. -/
structure HasRoom (par : Params α) (p : QuadraticProgram α) (offer : Option (Solution α)) :
    Prop where
  /-- The point and the multipliers, also of a program that is going to be rejected. -/
  state : p.Fits
  /-- A list of the inequalities. -/
  list : Memory.HoldsList α p.mi
  /-- The system of an iteration. The first one has at most as many active rows as there are
  variables, and each later one at most one row more than the one before. -/
  system : p.q.size = (p.n, p.n) →
    let size := p.n + min (p.me + p.mi) (p.n + par.maxIter)
    Memory.Holds α (.general size size)
  /-- The linear program for a starting point, if an accepted program needs one. -/
  start : p.check par.zeroThreshold = .ok () → NeedsSearch par p (usableOffer p offer) →
    StartFits p

/-- A program for which there is room is solved or rejected. -/
theorem solve?_total [Scalar.SignLaws α] (hbe : ∀ b ∈ be, b.HasNumbers)
    (hbi : ∀ b ∈ bi, b.HasNumbers) (hroom : (ofData q c ae be ai bi).HasRoom par offer) :
    ∃ out, (ofData q c ae be ai bi).solve? par offer = .ok out := by
  unfold solve?
  rw [require_eq_ok hroom.state]
  cases hcheck : (ofData q c ae be ai bi).check par.zeroThreshold with
  | error d => exact ⟨_, rfl⟩
  | ok u =>
    have hp : (ofData q c ae be ai bi).WellSized :=
      IsBuilt.wellSized ⟨q, c, ae, be, ai, bi, rfl⟩ hcheck
    exact solveValid_total par offer hp (hp.me_le_n hcheck)
      (hp.hasSignedBounds (hasNumbers_getD hbe) (hasNumbers_getD hbi)) (hroom.start hcheck)

theorem solve?_of_not_fits {p : QuadraticProgram α} (h : ¬ p.Fits) :
    p.solve? par offer = .error .tooLarge := by
  rw [solve?, require, if_neg h]
  rfl

/-- Without room for the linear program an accepted program that needs it is refused. -/
theorem solve?_of_not_startFits (hcheck : (ofData q c ae be ai bi).check par.zeroThreshold = .ok ())
    (hneeded : NeedsSearch par (ofData q c ae be ai bi)
      (usableOffer (ofData q c ae be ai bi) offer))
    (h : ¬ StartFits (ofData q c ae be ai bi)) :
    (ofData q c ae be ai bi).solve? par offer = .error .tooLarge := by
  by_cases hfits : (ofData q c ae be ai bi).Fits
  · have hp : (ofData q c ae be ai bi).WellSized :=
      IsBuilt.wellSized ⟨q, c, ae, be, ai, bi, rfl⟩ hcheck
    rw [solve?, require_eq_ok hfits, hcheck]
    simp only [solveValid?, initialise_refused (s := (ActiveSet.start par
      (ofData q c ae be ai bi)).state) hp (Vec.size_zeros _) hneeded h, bind, Except.bind]
  · exact solve?_of_not_fits par offer hfits

end QuadraticProgram

namespace LinearProgram

variable {p : LinearProgram α}

/-- Below an accepted number of rows the bounds are numbers. -/
theorem isNumber_entry {kind : ConstraintKind} {n rows : ℕ} {a b : Option (Mat α)}
    (h : checkPair kind n a b = .ok rows) (hb : ∀ b' ∈ b, b'.HasNumbers) {r : ℕ} (hr : r < rows) :
    (entry b r 0 == entry b r 0) = true := by
  unfold checkPair at h
  split at h
  · cases h
    cases hr
  · next a b =>
    split at h
    · next hsizes =>
      cases h
      have hrows : b.rows = a.rows := congrArg Prod.fst hsizes.2
      have hcols : b.cols = 1 := congrArg Prod.snd hsizes.2
      exact (hb b rfl).get ⟨hr.trans_eq hrows.symm, Nat.one_pos.trans_eq hcols.symm⟩
    · cases h
  · cases h

omit [Scalar α] in
theorem pairs_of_check {sizes : ℕ × ℕ} (h : p.check = .ok sizes) :
    checkPair .equality p.n p.ae p.be = .ok p.me ∧
      checkPair .inequality p.n p.ai p.bi = .ok p.mi := by
  unfold check at h
  split at h
  · obtain ⟨me, he, h⟩ : ∃ me, checkPair .equality p.n p.ae p.be = .ok me ∧
        (checkPair .inequality p.n p.ai p.bi).map (fun mi => (me, mi)) = .ok sizes := by
      cases he : checkPair .equality p.n p.ae p.be with
      | error d => rw [he] at h; cases h
      | ok me => rw [he] at h; exact ⟨me, rfl, h⟩
    cases hi : checkPair .inequality p.n p.ai p.bi with
    | error d => rw [hi] at h; cases h
    | ok mi => exact ⟨he.trans (checkPair_eq_ok he ▸ rfl), checkPair_eq_ok hi ▸ rfl⟩
  · cases h

variable (par : Params α)

theorem solve?_total_of_check [Scalar.SignLaws α] (hbe : ∀ b ∈ p.be, b.HasNumbers)
    (hbi : ∀ b ∈ p.bi, b.HasNumbers) {me mi : ℕ} (hcheck : p.check = .ok (me, mi))
    (hroom : p.Fits me mi) : ∃ out, p.solve? par = .ok out := by
  obtain ⟨he, hi⟩ := pairs_of_check hcheck
  have hsigned : ∀ r < p.me + p.mi,
      0 ≤ (signedRows (p.standardFormOf p.me p.mi).a
        (p.standardFormOf p.me p.mi).b).b.get r 0 := by
    intro r hr
    refine get_signedRows_b_nonneg_of_number (m := p.me + p.mi) rfl hr ?_
    rw [standardFormOf, Mat.get_ofFn _ hr Nat.one_pos]
    split
    · next hequality => exact isNumber_entry he hbe hequality
    · exact isNumber_entry hi hbi (by omega)
  obtain ⟨rfl, rfl⟩ := Prod.mk.inj (check_eq_ok hcheck)
  obtain ⟨trace, hsolve⟩ := solve?_eq_of_signed par hcheck hroom hsigned
  exact ⟨_, hsolve⟩

/-- There is room for what the solver makes of the program, if it is accepted. -/
def HasRoom (p : LinearProgram α) : Prop := ∀ me mi, p.check = .ok (me, mi) → p.Fits me mi

/-- A program for which there is room is solved or rejected. -/
theorem solve?_total [Scalar.SignLaws α] (hbe : ∀ b ∈ p.be, b.HasNumbers)
    (hbi : ∀ b ∈ p.bi, b.HasNumbers) (hroom : p.HasRoom) : ∃ out, p.solve? par = .ok out := by
  cases hcheck : p.check with
  | error d => exact ⟨_, by rw [solve?, hcheck]⟩
  | ok sizes => exact solve?_total_of_check par hbe hbi hcheck (hroom _ _ hcheck)

/-- Without room for its standard form or for the tableau an accepted program is refused. -/
theorem solve?_of_not_hasRoom (h : ¬ p.HasRoom) : p.solve? par = .error .tooLarge := by
  obtain ⟨me, mi, hcheck, h⟩ : ∃ me mi, p.check = .ok (me, mi) ∧ ¬ p.Fits me mi := by
    simpa [HasRoom] using h
  rw [solve?, hcheck]
  by_cases hform : StandardForm.Fits α (me + mi) (p.n + mi)
  · have hrows := signedRows?_eq_ok (a := (p.standardFormOf me mi).a)
      (b := (p.standardFormOf me mi).b) rfl (Or.inl rfl)
    have hstart := Tableau.ofStandardForm?_refused
      (a := (signedRows (p.standardFormOf me mi).a (p.standardFormOf me mi).b).a)
      (b := (signedRows (p.standardFormOf me mi).a (p.standardFormOf me mi).b).b)
      (c := (p.standardFormOf me mi).c) (fun htableau => h ⟨hform, htableau⟩) rfl rfl
    simp only [standardFormOf?, guarded_eq_ok hform, solveForm?, hrows, hstart, bind, Except.bind]
  · simp only [standardFormOf?, guarded, if_neg hform, bind, Except.bind]

end LinearProgram

/-- With numbers for bounds every program for which there is room has an answer, and what the
simplex method and the factorisations read and write lies inside of their matrices. Without room for
what the solver makes of it a program is refused. -/
theorem answered_of_numbers [Scalar.SignLaws α] (par : Params α) :
    (∀ (q c : Mat α) (ae be ai bi : Option (Mat α)) (offer : Option (Solution α)),
      let p := QuadraticProgram.ofData q c ae be ai bi
      (p.HasRoom par offer → (∀ b ∈ be, b.HasNumbers) → (∀ b ∈ bi, b.HasNumbers) →
        ∃ out, p.solve? par offer = .ok out) ∧
      (¬ p.Fits → p.solve? par offer = .error .tooLarge) ∧
      (p.check par.zeroThreshold = .ok () →
        ActiveSet.NeedsSearch par p (ActiveSet.usableOffer p offer) → ¬ ActiveSet.StartFits p →
          p.solve? par offer = .error .tooLarge)) ∧
    (∀ p : LinearProgram α,
      (p.HasRoom → (∀ b ∈ p.be, b.HasNumbers) → (∀ b ∈ p.bi, b.HasNumbers) →
        ∃ out, p.solve? par = .ok out) ∧
      (¬ p.HasRoom → p.solve? par = .error .tooLarge)) ∧
    (∀ (a b c : Mat α) (fuel : ℕ),
      ∀ t ∈ Tableau.tested par fuel (Tableau.ofStandardForm a b c), t.InRange par) ∧
    (∀ (a : Mat α) (start c : ℕ), start < a.rows →
      start ≤ (a.pivotFrom start c).row ∧ (a.pivotFrom start c).row < a.rows) ∧
    ∀ (f : LU α) (a : Mat α) (g : LU.Factors α),
      (f.compute a).factors = some g → g.InRange a.rows := by
  refine ⟨fun q c ae be ai bi offer => ⟨fun hroom hbe hbi => ?_, fun h => ?_,
    fun hcheck hneeded h => ?_⟩, fun p => ⟨fun hroom hbe hbi => ?_, fun h => ?_⟩,
    fun a b c fuel => ?_, fun a start c hstart => a.row_pivotFrom c hstart,
    fun f a g hg => LU.inRange_of_compute hg⟩
  · exact QuadraticProgram.solve?_total par q c offer hbe hbi hroom
  · exact QuadraticProgram.solve?_of_not_fits par offer h
  · exact QuadraticProgram.solve?_of_not_startFits par q c offer hcheck hneeded h
  · exact LinearProgram.solve?_total par hbe hbi hroom
  · exact LinearProgram.solve?_of_not_hasRoom par h
  · exact (Tableau.inRange_ofStandardForm par a b c).tested fuel

/-! ## A sample -/

namespace Lossy

instance : Scalar.SignLaws Lossy where
  neg_nonneg v hneg := by
    cases v with
    | nan => cases hneg
    | num x => exact decide_eq_true (neg_nonneg.2 (of_decide_eq_true hneg).le)
  nonneg v hself hneg := by
    cases v with
    | nan => cases hself
    | num x => exact decide_eq_true (not_lt.1 fun hx => hneg (decide_eq_true hx))

/-- Tolerances of which some are negative and some no numbers. -/
def params : Params Lossy :=
  ⟨3, 0, .nan, .num (-1), ⟨.nan, .num 0⟩, ⟨.num (-1), .nan⟩, ⟨.nan, .nan⟩, ⟨.num 0, .num (-1)⟩⟩

/-- A matrix without columns, which takes no room. -/
def rowsOnly (rows : ℕ) : Mat Lossy := ⟨.general rows 0, #[], rfl⟩

/-- A column of zeros. -/
def zeroColumn (rows : ℕ) : Mat Lossy :=
  ⟨.general rows 1, .replicate rows (.num 0), by rw [Array.size_replicate]; exact (mul_one _).symm⟩

end Lossy

open Lossy in
/-- The quadratic and the linear program with `nan` for all entries but the bound have an answer. A
program over no variables with `2 ^ 30` inequalities `0 ≤ 0` is refused for its tableau, and one
with `2 ^ 60` rows for its multipliers, although the rows lack their right-hand side. -/
theorem answered_of_numbers_sample :
    (∃ out, (QuadraticProgram.ofData (cell .nan) (cell .nan) none none (some (cell .nan))
      (some (cell (.num (-1))))).solve? params (some ⟨.optimal, #[], none, .nan, 7⟩) = .ok out) ∧
    (∃ out, LinearProgram.solve? params
      ⟨cell .nan, some (cell .nan), some (cell (.num (-1))), none, none⟩ = .ok out) ∧
    LinearProgram.solve? params ⟨zeroColumn 0, none, none, some (rowsOnly (2 ^ 30)),
      some (zeroColumn (2 ^ 30))⟩ = .error .tooLarge ∧
    (QuadraticProgram.ofData (rowsOnly 0) (zeroColumn 0) none none (some (rowsOnly (2 ^ 30)))
      (some (zeroColumn (2 ^ 30)))).solve? params none = .error .tooLarge ∧
    (QuadraticProgram.ofData (cell .nan) (cell .nan) (some (rowsOnly (2 ^ 60))) none none
        none).solve? params none = .error .tooLarge ∧
      (QuadraticProgram.ofData (cell .nan) (cell .nan) (some (rowsOnly (2 ^ 60))) none none
        none).check (.num 0) = .error (.pairIncomplete .equality) := by
  obtain ⟨hquadratic, hlinear, -⟩ := answered_of_numbers params
  have hbound : ∀ b ∈ some (cell (.num (-1))), b.HasNumbers := by
    rintro b ⟨⟩
    decide +kernel
  refine ⟨(hquadratic ..).1 ⟨by decide +kernel, by decide +kernel, fun _ => by decide +kernel,
      fun _ _ => by decide +kernel⟩ (fun b h => nomatch h) hbound,
    (hlinear _).1 (fun me mi hcheck => ?_) hbound (fun b h => nomatch h),
    (hlinear _).2 fun hroom => ?_,
    (hquadratic ..).2.2 rfl ⟨rfl, fun x hx => nomatch hx⟩ (by decide +kernel),
    (hquadratic ..).2.1 (by decide +kernel), rfl⟩
  · obtain ⟨rfl, rfl⟩ := Prod.mk.inj (Except.ok.inj hcheck)
    decide +kernel
  · exact absurd (hroom 0 (2 ^ 30) rfl) (by decide +kernel)

end QuadProg
