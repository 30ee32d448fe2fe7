import QuadProg.Factor.Triangular
import QuadProg.Proofs.Exact

/-!
# Stored matrices as matrices

A stored matrix is read as a matrix over finite index types, so that what is computed from its
entries can be compared with products, determinants and ranks. Points are still sequences, of which
the first terms count.
-/

namespace QuadProg

open Finset Matrix

/-- The first `m` rows and `n` columns. -/
def Mat.toMatrix {α : Type} [Scalar α] (a : Mat α) (m n : ℕ) : Matrix (Fin m) (Fin n) α :=
  .of fun i j => a.get i j

variable {K : Type} [Field K] [LinearOrder K] [Exact K]

omit [LinearOrder K] [Exact K] in
/-- Every family over the first numbers is read off a sequence. -/
theorem exists_sequence {n : ℕ} (v : Fin n → K) : ∃ x : ℕ → K, v = fun j : Fin n => x j :=
  ⟨fun j => if h : j < n then v ⟨j, h⟩ else 0, funext fun j => by simp⟩

namespace Mat

variable {a b : Mat K} {m n : ℕ}

theorem toMatrix_mulVec (hcols : a.cols = n) (x : ℕ → K) (i : Fin m) :
    (a.toMatrix m n *ᵥ fun j => x j) i = a.lhs i x := by
  rw [lhs, hcols]
  exact Fin.sum_univ_eq_sum_range (fun j => a.get i j * x j) n

theorem toMatrix_eq_zero_of_isZero (h : a.isZero = true) : a.toMatrix m n = 0 := by
  ext r c
  change a.get r c = 0
  unfold get
  split
  · cases hv : a.data[a.shape.index r c]? with
    | none => rw [Array.getD_eq_getD_getElem?, hv, Option.getD_none]
    | some v =>
      rw [Array.getD_eq_getD_getElem?, hv, Option.getD_some]
      exact of_decide_eq_true
        (Array.all_eq_true_iff_forall_mem.1 h v (Array.mem_of_getElem? hv))
  · rfl

theorem toMatrix_toGeneral (a : Mat K) : a.toGeneral.toMatrix m n = a.toMatrix m n := by
  ext r c
  exact get_toGeneral a r c

/-- A matrix whose columns are solutions for the columns of `b`. -/
theorem toMatrix_mul_mapColumns {f : Vec K → Vec K} (hcols : a.cols = n) (hrows : b.rows = n)
    (h : ∀ v : Vec K, v.size = n → ∀ r < n, a.lhs r (f v).entry = v.entry r) :
    a.toMatrix n n * (b.mapColumns f).toMatrix n b.cols = b.toMatrix n b.cols := by
  ext r c
  have hsolves := h (b.column c) ((size_column b c).trans hrows) r r.isLt
  rw [entry_column (r.isLt.trans_eq hrows.symm)] at hsolves
  calc (a.toMatrix n n * (b.mapColumns f).toMatrix n b.cols) r c
      = a.lhs r fun j => (b.mapColumns f).get j c := by
        rw [← toMatrix_mulVec hcols]
        rfl
    _ = a.lhs r (f (b.column c)).entry := by
        refine lhs_congr fun j hj => get_mapColumns f b ?_ c.isLt
        omega
    _ = b.get r c := hsolves

/-- A square matrix is singular just when it maps a point other than zero to zero. -/
theorem det_toMatrix_eq_zero_iff (hcols : a.cols = n) :
    (a.toMatrix n n).det = 0 ↔ ∃ v : ℕ → K, (∃ i < n, v i ≠ 0) ∧ ∀ r < n, a.lhs r v = 0 := by
  rw [← exists_mulVec_eq_zero_iff]
  constructor
  · rintro ⟨w, hne, hw⟩
    obtain ⟨v, rfl⟩ := exists_sequence w
    refine ⟨v, ?_, fun r hr => ?_⟩
    · obtain ⟨i, hi⟩ := Function.ne_iff.1 hne
      exact ⟨i, i.isLt, hi⟩
    · rw [← toMatrix_mulVec (m := n) hcols v ⟨r, hr⟩, hw]
      rfl
  · rintro ⟨v, ⟨i, hi, hne⟩, hv⟩
    refine ⟨fun j => v j, fun hzero => hne (congrFun hzero ⟨i, hi⟩), funext fun r => ?_⟩
    rw [toMatrix_mulVec hcols]
    exact hv r r.isLt

end Mat

end QuadProg
