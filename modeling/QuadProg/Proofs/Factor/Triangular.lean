import QuadProg.Factor.Triangular
import QuadProg.Proofs.Exact

/-!
# Substitution solves triangular systems

Each unknown satisfies the equation that it was computed from, read with the unknowns of the final
vector: later unknowns do not change earlier ones. `eq_zero_of_upper` is the converse, an upper
triangular system without zeros on its diagonal determines its unknowns, and `exists_combination`
what becomes of it with one unknown more than equations.
-/

namespace QuadProg

open Finset

namespace Triangular

variable {K : Type} [Field K] [LinearOrder K] [Exact K]
variable {coef : ℕ → ℕ → K} {finish : ℕ → K → K} {b : Vec K}

/-! ## Forward substitution -/

theorem entry_forward_succ {i n : ℕ} (hi : i < n) :
    (forward coef finish b (n + 1)).entry i = (forward coef finish b n).entry i := by
  rw [forward, Vec.entry_push, size_forward, if_neg (by omega)]

theorem entry_forward_of_le {i n m : ℕ} (hi : i < n) (hm : n ≤ m) :
    (forward coef finish b m).entry i = (forward coef finish b n).entry i := by
  induction m, hm using Nat.le_induction with
  | base => rfl
  | succ m hm ih => rw [entry_forward_succ (by omega), ih]

/-- The equation of an unknown of forward substitution. -/
theorem entry_forward (coef : ℕ → ℕ → K) (finish : ℕ → K → K) (b : Vec K) {i n : ℕ} (hi : i < n) :
    (forward coef finish b n).entry i =
      finish i (b.entry i - ∑ k ∈ range i, coef i k * (forward coef finish b n).entry k) := by
  have hlast : (forward coef finish b (i + 1)).entry i =
      finish i (b.entry i - ∑ k ∈ range i, coef i k * (forward coef finish b i).entry k) := by
    rw [forward, Vec.entry_push, size_forward, if_pos rfl, Scalar.diffTo_eq_sub_sum]
  rw [entry_forward_of_le (show i < i + 1 by omega) (show i + 1 ≤ n by omega), hlast]
  congr 2
  refine sum_congr rfl fun k hk => ?_
  have hk := mem_range.1 hk
  rw [← entry_forward_of_le hk (show i ≤ n by omega)]

/-! ## Backward substitution -/

/-- The unknowns that are known from the start are kept behind the others. -/
theorem getD_backward_add (n : ℕ) (known : List K) (t : ℕ) :
    (backward coef finish b n known).getD (n + t) 0 = known.getD t 0 := by
  induction n generalizing known t with
  | zero => rw [backward, Nat.zero_add]
  | succ n ih =>
    have hshift := ih (finish n (Scalar.diffTo (b.entry n)
      (fun t => coef n (n + 1 + t) * known.getD t 0) known.length) :: known) (t + 1)
    rw [backward, show n + 1 + t = n + (t + 1) by omega, hshift, List.getD_cons_succ]

/-- The equation of an unknown of backward substitution. -/
theorem getD_backward {i n : ℕ} (known : List K) (hi : i < n) :
    (backward coef finish b n known).getD i 0 =
      finish i (b.entry i - ∑ k ∈ Ico (i + 1) (n + known.length),
        coef i k * (backward coef finish b n known).getD k 0) := by
  induction n generalizing known with
  | zero => omega
  | succ n ih =>
    rcases Nat.lt_or_ge i n with hlt | hge
    · have := ih (finish n (Scalar.diffTo (b.entry n)
        (fun t => coef n (n + 1 + t) * known.getD t 0) known.length) :: known) hlt
      rw [backward, this, List.length_cons, show n + (known.length + 1) = n + 1 + known.length by
        omega]
    · obtain rfl : i = n := by omega
      have hself : (backward coef finish b (i + 1) known).getD i 0 =
          finish i (Scalar.diffTo (b.entry i)
            (fun t => coef i (i + 1 + t) * known.getD t 0) known.length) :=
        getD_backward_add i _ 0
      rw [hself, Scalar.diffTo_eq_sub_sum]
      rw [sum_Ico_eq_sum_range, show i + 1 + known.length - (i + 1) = known.length by omega]
      congr 2
      exact sum_congr rfl fun t _ => by rw [getD_backward_add]

/-- The equation of an unknown of backward substitution from nothing. -/
theorem entry_backward (coef : ℕ → ℕ → K) (finish : ℕ → K → K) (b : Vec K) {i n : ℕ} (hi : i < n) :
    Vec.entry (backward coef finish b n []).toArray i =
      finish i (b.entry i - ∑ k ∈ Ico (i + 1) n,
        coef i k * Vec.entry (backward coef finish b n []).toArray k) := by
  simp only [Vec.entry_toArray]
  exact getD_backward [] hi

/-! ## Sums over triangles -/

omit [LinearOrder K] [Exact K] in
theorem sum_ite_le {i n : ℕ} (hi : i < n) (f : ℕ → K) :
    ∑ k ∈ range n, (if k ≤ i then f k else 0) = ∑ k ∈ range i, f k + f i := by
  rw [← sum_filter, ← sum_range_succ]
  congr 1
  ext k
  simp only [mem_filter, mem_range]
  omega

omit [LinearOrder K] [Exact K] in
theorem sum_ite_ge {i n : ℕ} (hi : i < n) (f : ℕ → K) :
    ∑ k ∈ range n, (if i ≤ k then f k else 0) = f i + ∑ k ∈ Ico (i + 1) n, f k := by
  rw [← sum_filter, ← sum_eq_sum_Ico_succ_bot hi]
  congr 1
  ext k
  simp only [mem_filter, mem_range, mem_Ico]
  omega

/-! ## Determined unknowns -/

omit [LinearOrder K] [Exact K] in
/-- The last unknown that is not zero would have to be cancelled by those after it. -/
theorem eq_zero_of_upper {u : ℕ → ℕ → K} {x : ℕ → K} {n : ℕ} (hdiag : ∀ i < n, u i i ≠ 0)
    (hsum : ∀ i < n, u i i * x i + ∑ k ∈ Ico (i + 1) n, u i k * x k = 0) :
    ∀ i < n, x i = 0 := by
  have key : ∀ d i, i + d + 1 = n → x i = 0 := by
    intro d
    induction d using Nat.strong_induction_on with
    | _ d ih =>
      intro i hid
      have hi : i < n := by omega
      have htail : ∑ k ∈ Ico (i + 1) n, u i k * x k = 0 := by
        refine sum_eq_zero fun k hk => ?_
        have hk := mem_Ico.1 hk
        rw [ih (n - 1 - k) (by omega) k (by omega), mul_zero]
      have hrow := hsum i hi
      rw [htail, add_zero] at hrow
      exact (mul_eq_zero.1 hrow).resolve_left (hdiag i hi)
  intro i hi
  exact key (n - 1 - i) i (by omega)

/-- With one column more than rows, the columns of an upper triangle without zeros on its diagonal
combine to zero, with the weight one on the last. -/
theorem exists_combination {u : ℕ → ℕ → K} {k : ℕ} (hdiag : ∀ t < k, u t t ≠ 0) :
    ∃ v : ℕ → K, v k = 1 ∧ (∀ j, k < j → v j = 0) ∧
      ∀ t < k, u t t * v t + ∑ j ∈ Ico (t + 1) (k + 1), u t j * v j = 0 := by
  -- The triangle determines the weights of the columns before the last.
  let rhs : Vec K := Array.ofFn fun t : Fin k => -u t k
  let head : Vec K := (backward u (fun i s => s / u i i) rhs k []).toArray
  let v : ℕ → K := fun j => if j < k then head.entry j else if j = k then 1 else 0
  have hbefore : ∀ j < k, v j = head.entry j := fun j hj => if_pos hj
  have hat : v k = 1 := by simp [v]
  refine ⟨v, hat, fun j hj => ?_, fun t ht => ?_⟩
  · simp only [v]
    rw [if_neg (by omega), if_neg (by omega)]
  · have hrhs : rhs.entry t = -u t k := by simp [rhs, Vec.entry, Array.getD, ht]
    have hentry : head.entry t = (rhs.entry t - ∑ j ∈ Ico (t + 1) k, u t j * head.entry j) /
        u t t := entry_backward _ _ _ ht
    have htail : ∑ j ∈ Ico (t + 1) k, u t j * v j = ∑ j ∈ Ico (t + 1) k, u t j * head.entry j :=
      sum_congr rfl fun j hj => by rw [hbefore j (mem_Ico.1 hj).2]
    rw [sum_Ico_succ_top (show t + 1 ≤ k by omega), htail, hat, hbefore t ht, hentry, hrhs,
      mul_div_cancel₀ _ (hdiag t ht)]
    ring

end Triangular

end QuadProg
