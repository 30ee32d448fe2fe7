import QuadProg.Proofs.Lossy
import QuadProg.Proofs.Mat.Dense
import QuadProg.Proofs.QuadraticProgram

/-!
# The numerical rank in exact arithmetic

Without a threshold elimination finds as many pivots as the rows have dimensions. What a sweep has
still to look at are the rows without a pivot, from the current column on. A column that is passed
over is zero there and leaves the space of these rows as it is; a pivot takes its own row out of the
space and lowers the dimension by one, for the rows cleared in its column span the rest. So the
pivots found and the dimension that is left always add up to the rank, whichever columns were passed
over.

Hence a quadratic program is rejected for its rank just when its equality constraints are linearly
dependent.
-/

namespace QuadProg

open Finset Matrix Module

namespace Rank

variable {K : Type} [Field K] [LinearOrder K] [Exact K] {a : Mat K} {nr nc start c : ℕ}

/-! ## The rows still to be looked at -/

/-- The row `i` with zeros before the column `c`. -/
def tail (nc : ℕ) (a : Mat K) (c i : ℕ) : Fin nc → K := fun j => if c ≤ j then a.get i j else 0

/-- The space of the rows in `[start, nr)` with zeros before the column `c`. -/
def tailSpace (nr nc : ℕ) (a : Mat K) (start c : ℕ) : Submodule K (Fin nc → K) :=
  Submodule.span K (tail nc a c '' Set.Ico start nr)

theorem tail_mem_tailSpace {i : ℕ} (hi : start ≤ i) (hin : i < nr) :
    tail nc a c i ∈ tailSpace nr nc a start c :=
  Submodule.subset_span ⟨i, ⟨hi, hin⟩, rfl⟩

theorem finrank_tailSpace_no_rows : finrank K (tailSpace nr nc a nr c) = 0 := by
  rw [tailSpace, Set.Ico_self, Set.image_empty, Submodule.span_empty, finrank_bot]

theorem finrank_tailSpace_no_columns : finrank K (tailSpace nr nc a start nc) = 0 := by
  have hbot : tailSpace nr nc a start nc = ⊥ := by
    refine Submodule.span_eq_bot.2 ?_
    rintro _ ⟨i, -, rfl⟩
    exact funext fun j => if_neg (not_le.2 j.isLt)
  rw [hbot, finrank_bot]

theorem tailSpace_swapRows (hshape : a.shape = .general nr nc) {p : ℕ} (hge : start ≤ p)
    (hlt : p < nr) : tailSpace nr nc (a.swapRows start p) start c = tailSpace nr nc a start c := by
  have hmem : ∀ i ∈ Set.Ico start nr, Equiv.swap start p i ∈ Set.Ico start nr := by
    intro i hi
    rw [Equiv.swap_apply_def]
    split_ifs
    · exact ⟨hge, hlt⟩
    · exact ⟨le_rfl, hge.trans_lt hlt⟩
    · exact hi
  have hrow : ∀ i ∈ Set.Ico start nr,
      tail nc (a.swapRows start p) c i = tail nc a c (Equiv.swap start p i) := by
    intro i hi
    refine funext fun j => ?_
    rw [tail, tail, Mat.get_swapRows hshape hi.2 j.isLt]
  refine congrArg (Submodule.span K) (Set.Subset.antisymm ?_ ?_)
  · rintro _ ⟨i, hi, rfl⟩
    exact ⟨_, hmem i hi, (hrow i hi).symm⟩
  · rintro _ ⟨i, hi, rfl⟩
    refine ⟨_, hmem i hi, ?_⟩
    rw [hrow _ (hmem i hi), Equiv.swap_apply_self]

/-- A column without an entry other than zero is no loss. -/
theorem tailSpace_succ (hzero : ∀ i, start ≤ i → i < nr → a.get i c = 0) :
    tailSpace nr nc a start (c + 1) = tailSpace nr nc a start c := by
  refine congrArg (Submodule.span K) (Set.image_congr fun i hi => funext fun j => ?_)
  unfold tail
  rcases Nat.lt_trichotomy c j with hlt | heq | hgt
  · rw [if_pos (Nat.succ_le_of_lt hlt), if_pos hlt.le]
  · rw [if_neg (by omega), if_pos heq.le, ← heq, hzero i hi.1 hi.2]
  · rw [if_neg (by omega), if_neg (by omega)]

/-! ## A pivot -/

section Pivot

variable (hshape : a.shape = .general nr nc) (hstart : start < nr) (hc : c < nc)
  (hpivot : a.get start c ≠ 0)

include hshape hpivot in
theorem tail_eliminate {i : ℕ} (hi : start < i) (hin : i < nr) :
    tail nc (eliminate a start c) (c + 1) i =
      tail nc a c i - (a.get i c / a.get start c) • tail nc a c start := by
  refine funext fun j => ?_
  rw [Pi.sub_apply, Pi.smul_apply, smul_eq_mul]
  unfold tail
  rcases Nat.lt_trichotomy c j with hlt | heq | hgt
  · rw [if_pos (Nat.succ_le_of_lt hlt), if_pos hlt.le, if_pos hlt.le,
      get_eliminate hshape hi hin hlt.le j.isLt]
  · rw [if_neg (by omega), if_pos heq.le, if_pos heq.le, ← heq, div_mul_cancel₀ _ hpivot, sub_self]
  · rw [if_neg (by omega), if_neg (by omega), if_neg (by omega), mul_zero, sub_zero]

include hshape hstart hpivot in
theorem tailSpace_eq_sup : tailSpace nr nc a start c =
    tailSpace nr nc (eliminate a start c) (start + 1) (c + 1) ⊔
      Submodule.span K {tail nc a c start} := by
  have hself : tail nc a c start ∈ Submodule.span K {tail nc a c start} :=
    Submodule.mem_span_singleton_self _
  refine le_antisymm (Submodule.span_le.2 ?_) (sup_le (Submodule.span_le.2 ?_) ?_)
  · rintro _ ⟨i, ⟨hi, hin⟩, rfl⟩
    rcases Nat.eq_or_lt_of_le hi with rfl | hlt
    · exact Submodule.mem_sup_right hself
    · rw [← sub_add_cancel (tail nc a c i) ((a.get i c / a.get start c) • tail nc a c start),
        ← tail_eliminate hshape hpivot hlt hin]
      exact Submodule.add_mem_sup (tail_mem_tailSpace hlt hin) (Submodule.smul_mem _ _ hself)
  · rintro _ ⟨i, ⟨hi, hin⟩, rfl⟩
    rw [tail_eliminate hshape hpivot hi hin]
    exact Submodule.sub_mem _ (tail_mem_tailSpace (Nat.le_of_succ_le hi) hin)
      (Submodule.smul_mem _ _ (tail_mem_tailSpace le_rfl hstart))
  · exact (Submodule.span_singleton_le_iff_mem _ _).2 (tail_mem_tailSpace le_rfl hstart)

include hc hpivot in
/-- The row of the pivot is not among the cleared rows, which vanish in its column. -/
theorem tail_notMem_tailSpace (b : Mat K) :
    tail nc a c start ∉ tailSpace nr nc b (start + 1) (c + 1) := by
  have hvanish : tailSpace nr nc b (start + 1) (c + 1) ≤
      LinearMap.ker (LinearMap.proj (⟨c, hc⟩ : Fin nc)) := by
    refine Submodule.span_le.2 ?_
    rintro _ ⟨i, -, rfl⟩
    exact if_neg (Nat.not_succ_le_self c)
  intro hmem
  have hzero : tail nc a c start ⟨c, hc⟩ = 0 := hvanish hmem
  rw [tail, if_pos le_rfl] at hzero
  exact hpivot hzero

include hshape hstart hc hpivot in
theorem finrank_tailSpace_eliminate : finrank K (tailSpace nr nc a start c) =
    finrank K (tailSpace nr nc (eliminate a start c) (start + 1) (c + 1)) + 1 := by
  have hnotMem : tail nc a c start ∉
      tailSpace nr nc (eliminate a start c) (start + 1) (c + 1) :=
    tail_notMem_tailSpace hc hpivot _
  have hne : tail nc a c start ≠ 0 := fun h => hnotMem (h ▸ Submodule.zero_mem _)
  have hinf := (Submodule.disjoint_span_singleton' hne).2 hnotMem
  have hdim := Submodule.finrank_sup_add_finrank_inf_eq
    (tailSpace nr nc (eliminate a start c) (start + 1) (c + 1))
    (Submodule.span K {tail nc a c start})
  rwa [hinf.eq_bot, finrank_bot, add_zero, finrank_span_singleton hne,
    ← tailSpace_eq_sup hshape hstart hpivot] at hdim

end Pivot

/-! ## The sweep -/

variable [IsStrictOrderedRing K]

/-- The pivots found and the dimension of what is left add up. -/
theorem sweep_eq_add_finrank {left found : ℕ} (hshape : a.shape = .general nr nc)
    (hleft : left ≤ nc) (hfound : found ≤ nr) :
    (sweep 0 left found a).1 = found + finrank K (tailSpace nr nc a found (nc - left)) := by
  induction left generalizing found a with
  | zero => rw [sweep, Nat.sub_zero, finrank_tailSpace_no_columns, add_zero]
  | succ left ih =>
    have hrows : a.rows = nr := by rw [Mat.rows, hshape]; rfl
    have hcols : a.cols = nc := by rw [Mat.cols, hshape]; rfl
    have hnext : nc - left = nc - (left + 1) + 1 := by omega
    rw [sweep, hcols, hrows]
    split
    · next hfull => rw [hfull, finrank_tailSpace_no_rows, add_zero]
    · next hfull =>
      obtain ⟨hge, hlt, hmag, hall⟩ := Mat.pivotFrom_spec (a := a) (c := nc - (left + 1))
        (show found < a.rows by omega)
      rw [hrows] at hlt hall
      dsimp only
      split
      · next hpivot =>
        have hne : (a.swapRows found (a.pivotFrom found (nc - (left + 1))).row).get found
            (nc - (left + 1)) ≠ 0 := by
          rw [Mat.get_swapRows hshape (by omega) (by omega), Equiv.swap_apply_left]
          rwa [hmag, abs_pos] at hpivot
        rw [ih (a := eliminate (a.swapRows found _) found _) hshape (by omega) (by omega), hnext,
          ← tailSpace_swapRows hshape hge hlt,
          finrank_tailSpace_eliminate (a := a.swapRows found _) hshape (by omega) (by omega) hne]
        ring
      · next hpivot =>
        have hzero : ∀ i, found ≤ i → i < nr → a.get i (nc - (left + 1)) = 0 := fun i hi hin =>
          abs_nonpos_iff.1 ((hall i hi hin).trans (not_lt.1 hpivot))
        rw [ih hshape (by omega) hfound, hnext, tailSpace_succ hzero]

/-! ## The rank of a matrix -/

omit [IsStrictOrderedRing K] in
theorem finrank_tailSpace_zero (a : Mat K) :
    finrank K (tailSpace nr nc a 0 0) = (a.toMatrix nr nc).rank := by
  have hrows : tail nc a 0 '' Set.Ico 0 nr = Set.range (a.toMatrix nr nc).row := by
    refine Set.Subset.antisymm ?_ ?_
    · rintro _ ⟨i, ⟨-, hi⟩, rfl⟩
      exact ⟨⟨i, hi⟩, funext fun j => (if_pos (Nat.zero_le _)).symm⟩
    · rintro _ ⟨i, rfl⟩
      exact ⟨i, ⟨Nat.zero_le _, i.isLt⟩, funext fun j => if_pos (Nat.zero_le _)⟩
  rw [rank_eq_finrank_span_row, tailSpace, hrows]

/-- Without a threshold the number of pivots is the rank. -/
theorem rank_eq (a : Mat K) : a.rank 0 = (a.toMatrix a.rows a.cols).rank := by
  unfold Mat.rank
  split
  · next hempty =>
    have hheight := (a.toMatrix a.rows a.cols).rank_le_height
    have hwidth := (a.toMatrix a.rows a.cols).rank_le_width
    omega
  · split
    · next hzero => rw [Mat.toMatrix_eq_zero_of_isZero hzero, rank_zero]
    · have hsweep := sweep_eq_add_finrank a.shape_toGeneral le_rfl (Nat.zero_le _)
      rw [reduce, zero_mul, Mat.cols_toGeneral, hsweep, Nat.sub_self, finrank_tailSpace_zero,
        Mat.toMatrix_toGeneral, zero_add]

end Rank

/-! ## The check of a program -/

namespace QuadraticProgram

section Check

variable {α : Type} [Scalar α]

/-- Constraints over `n` variables and their bounds fit together: neither is given, or there is one
bound for each row. -/
def PairFits (n : ℕ) : Option (Mat α) → Option (Mat α) → Prop
  | none, none => True
  | some a, some b => a.cols = n ∧ b.size = (a.rows, 1)
  | _, _ => False

omit [Scalar α] in
theorem defectOf_checkPair (kind : ConstraintKind) (n : ℕ) (a b : Option (Mat α)) :
    (defectOf (checkPair kind n a b) = [] ↔ PairFits n a b) ∧
      ∀ d ∈ defectOf (checkPair kind n a b), d.rejection ≠ .rankDeficient := by
  rcases a with _ | a <;> rcases b with _ | b
  · exact ⟨iff_of_true rfl trivial, List.forall_mem_nil _⟩
  · exact ⟨iff_of_false (List.cons_ne_nil _ _) id,
      List.forall_mem_singleton.2 fun h => Rejection.noConfusion h⟩
  · exact ⟨iff_of_false (List.cons_ne_nil _ _) id,
      List.forall_mem_singleton.2 fun h => Rejection.noConfusion h⟩
  · by_cases hsizes : a.cols = n ∧ b.size = (a.rows, 1)
    · rw [checkPair, if_pos hsizes]
      exact ⟨iff_of_true rfl hsizes, List.forall_mem_nil _⟩
    · rw [checkPair, if_neg hsizes]
      exact ⟨iff_of_false (List.cons_ne_nil _ _) hsizes,
        List.forall_mem_singleton.2 fun h => Rejection.noConfusion h⟩

/-- The rank is compared only when everything else fits. -/
theorem check_rankDeficient_iff {q c : Mat α} {ae be ai bi : Option (Mat α)} {threshold : α} :
    let p := ofData q c ae be ai bi
    (∃ d, p.check threshold = .error d ∧ d.rejection = .rankDeficient) ↔
      PairFits p.n ae be ∧ PairFits p.n ai bi ∧ (q.size = (p.n, p.n) ∧ c.size = (p.n, 1)) ∧
        p.ae.rank threshold ≠ p.me := by
  obtain ⟨hequalities, he⟩ := defectOf_checkPair .equality c.rows ae be
  obtain ⟨hinequalities, hi⟩ := defectOf_checkPair .inequality c.rows ai bi
  intro p
  have hnone : p.defects = [] ↔ PairFits p.n ae be ∧ PairFits p.n ai bi :=
    List.append_eq_nil_iff.trans (and_congr hequalities hinequalities)
  have hother : ∀ d ∈ p.defects, d.rejection ≠ .rankDeficient := fun d hd =>
    (List.mem_append.1 hd).elim (he d) (hi d)
  rw [← and_assoc, ← hnone]
  unfold check
  split
  · next d rest hdefects =>
    rw [hdefects]
    refine iff_of_false ?_ fun h => List.cons_ne_nil d rest h.1
    rintro ⟨d', hd', hkind⟩
    obtain rfl := Except.error.inj hd'
    exact hother d (hdefects ▸ List.mem_cons_self) hkind
  · next hdefects =>
    split
    · next hsizes =>
      have hzero : p.me = 0 → p.ae.rank threshold = p.me := fun hme =>
        le_antisymm ((p.ae.rank_le threshold).trans (min_le_left _ _)) (hme ▸ Nat.zero_le _)
      split
      · next hme => exact iff_of_false nofun fun h => h.2.2 (hzero hme)
      · dsimp only
        split
        · next hrank => exact iff_of_false nofun fun h => h.2.2 hrank
        · next hrank => exact iff_of_true ⟨_, rfl, rfl⟩ ⟨hdefects, hsizes, hrank⟩
    · next hsizes =>
      refine iff_of_false ?_ fun h => hsizes h.2.1
      rintro ⟨d, hd, hkind⟩
      obtain rfl := Except.error.inj hd
      cases hkind

end Check

variable {K : Type} [Field K] [LinearOrder K] [Exact K] [IsStrictOrderedRing K]

/-- In exact arithmetic and without a threshold the number of pivots is the rank, so that a program
whose data fit together is rejected for its rank just when the rows of its equality constraints are
linearly dependent. For any scalars the number of pivots is at most that of the rows and of the
columns, so that an accepted program has no more equality constraints than variables. -/
theorem rank_check_exact {α : Type} [Scalar α] :
    (∀ a : Mat K, a.rank 0 = (a.toMatrix a.rows a.cols).rank) ∧
      (∀ (q c : Mat K) (ae be ai bi : Option (Mat K)),
        let p := ofData q c ae be ai bi
        (∃ d, p.check 0 = .error d ∧ d.rejection = .rankDeficient) ↔
          PairFits p.n ae be ∧ PairFits p.n ai bi ∧ (q.size = (p.n, p.n) ∧ c.size = (p.n, 1)) ∧
            ¬ LinearIndependent K (p.ae.toMatrix p.me p.n).row) ∧
      (∀ (a : Mat α) (relative : α), a.rank relative ≤ min a.rows a.cols) ∧
      ∀ (p : QuadraticProgram α) (threshold : α), p.IsBuilt → p.check threshold = .ok () →
        p.me ≤ p.n := by
  refine ⟨Rank.rank_eq, fun q c ae be ai bi => ?_, Mat.rank_le, fun p threshold hp hcheck =>
    (hp.wellSized hcheck).me_le_n hcheck⟩
  intro p
  refine check_rankDeficient_iff.trans <| and_congr_right fun hequalities =>
    and_congr_right fun _ => and_congr_right fun _ => not_congr ?_
  have hcols : p.ae.cols = p.n := (pair_sizes ((defectOf_checkPair .equality _ ae be).1.2
    hequalities)).1
  rw [Rank.rank_eq, hcols, rank_eq_finrank_span_row, linearIndependent_iff_card_eq_finrank_span,
    Fintype.card_fin, eq_comm]
  rfl

/-- A packed matrix of rank one whose first column has no pivot. -/
def skippedColumn : Mat ℚ := ⟨.packed 3, #[0, 0, 1, 0, 2, 4], rfl⟩

/-- Minimise `½ (x² + y²)` subject to one equation given twice. -/
def repeatedRow : QuadraticProgram ℚ :=
  letI := Exact.rational 1000
  ofData ⟨.packed 2, #[1, 0, 1], rfl⟩ ⟨.general 2 1, #[0, 0], rfl⟩
    (some ⟨.general 2 2, #[1, 2, 2, 4], rfl⟩) (some ⟨.general 2 1, #[3, 6], rfl⟩) none none

/-- A program of one variable whose quadratic term is no number. -/
def spoiledTerm : QuadraticProgram Lossy :=
  ofData (Lossy.cell .nan) (Lossy.cell (.num 0)) (some (Lossy.cell (.num 1)))
    (some (Lossy.cell (.num 1))) none none

theorem rank_check_exact_repeatedRow :
    letI := Exact.rational 1000
    (skippedColumn.rank 0 = 1 ∧ (skippedColumn.toMatrix 3 3).rank = 1) ∧
      ¬ LinearIndependent ℚ (repeatedRow.ae.toMatrix 2 2).row ∧
      (spoiledTerm.ae.rank .nan ≤ 1 ∧ spoiledTerm.check (.num 0) = .ok () ∧
        spoiledTerm.me ≤ spoiledTerm.n) := by
  let := Exact.rational 1000
  obtain ⟨hrank, hdependent, hbound, haccepted⟩ := rank_check_exact (K := ℚ) (α := Lossy)
  have hskipped : skippedColumn.rank 0 = 1 := by decide +kernel
  have hrejected : repeatedRow.check 0 = .error (.dependentRows 1 2) := by decide +kernel
  have hcheck : spoiledTerm.check (.num 0) = .ok () := by decide +kernel
  refine ⟨⟨hskipped, (hrank skippedColumn).symm.trans hskipped⟩, ?_, hbound _ .nan, hcheck,
    haccepted _ _ ⟨_, _, _, _, _, _, rfl⟩ hcheck⟩
  obtain ⟨-, -, -, hrows⟩ := (hdependent _ _ _ _ _ _).1 ⟨_, hrejected, rfl⟩
  exact hrows

end QuadraticProgram

end QuadProg
