import QuadProg.Proofs.Exact

/-!
# Tolerances

A tolerance with thresholds other than zero still decides soundly in one direction: what is not
negligible is not zero, and by how much a negligible number can be larger than zero is known.
-/

namespace QuadProg

namespace Tolerance

variable {K : Type} [Field K] [LinearOrder K] [Exact K]

/-- The thresholds are not negative, and next to a number only smaller ones are negligible. -/
structure IsProper (tol : Tolerance K) : Prop where
  relative_nonneg : 0 ≤ tol.relative
  relative_le_one : tol.relative ≤ 1
  absolute_nonneg : 0 ≤ tol.absolute

variable {tol : Tolerance K} {scale v : K}

theorem isSmall_abs [IsStrictOrderedRing K] (scale v : K) :
    tol.isSmall |scale| v = tol.isSmall scale v := by
  simp [isSmall, isZero]

theorem abs_le_of_isSmall (hscale : tol.isZero scale = false) (h : tol.isSmall scale v = true) :
    |v| ≤ tol.relative * |scale| := by
  unfold isSmall at h
  rw [hscale, if_neg Bool.false_ne_true] at h
  exact of_decide_eq_true h

omit [Exact K] in
theorem IsExact.isProper [IsStrictOrderedRing K] (h : tol.IsExact) : tol.IsProper :=
  ⟨h.relative.ge, h.relative.le.trans zero_le_one, h.absolute.ge⟩

theorem differ_eq_false_iff [IsStrictOrderedRing K] {a b : K} : tol.differ a b = false ↔
    |a - b| ≤ tol.absolute ∨ |a - b| ≤ tol.relative * max |a| |b| := by
  simp only [differ, Scalar.abs_eq_abs, Scalar.max_eq_max, Bool.and_eq_false_iff,
    decide_eq_false_iff_not, not_lt]

namespace IsProper

variable [IsStrictOrderedRing K] (h : tol.IsProper)

include h

theorem isZero_zero : tol.isZero 0 = true := by
  simpa [isZero] using h.absolute_nonneg

theorem isSmall_zero (scale : K) : tol.isSmall scale 0 = true := by
  unfold isSmall
  split
  · exact h.isZero_zero
  · simpa using mul_nonneg h.relative_nonneg (abs_nonneg scale)

/-- A number on the way from `v` to `a` does not differ from `a` if `v` does not: on the way the
magnitude falls at most as fast as the difference. -/
theorem differ_between {a v w : K} (hv : tol.differ a v = false) (hw : w ∈ Set.uIcc a v) :
    tol.differ a w = false := by
  rw [differ_eq_false_iff] at hv ⊢
  have hsplit : |a - v| = |a - w| + |w - v| := by
    rcases Set.mem_uIcc.1 hw with ⟨hl, hr⟩ | ⟨hl, hr⟩
    · rw [abs_of_nonpos (by linarith), abs_of_nonpos (by linarith), abs_of_nonpos (by linarith)]
      ring
    · rw [abs_of_nonneg (by linarith), abs_of_nonneg (by linarith), abs_of_nonneg (by linarith)]
      ring
  have hway := abs_nonneg (w - v)
  rcases hv with habs | hrel
  · exact Or.inl (by linarith)
  · refine Or.inr ?_
    have hmax : max |a| |v| ≤ max |a| |w| + |w - v| := by
      refine max_le ((le_max_left _ _).trans (le_add_of_nonneg_right hway)) ?_
      have htriangle := abs_sub_abs_le_abs_sub v w
      rw [abs_sub_comm] at htriangle
      linarith [le_max_right |a| |w|]
    have hscaled := mul_le_mul_of_nonneg_left hmax h.relative_nonneg
    have hpart := mul_le_mul_of_nonneg_right h.relative_le_one hway
    linarith

theorem ne_zero (hv : tol.isSmall scale v = false) : v ≠ 0 := by
  rintro rfl
  rw [h.isSmall_zero] at hv
  cases hv

/-- The ratio to a number that is not negligible is at most the reciprocal of the relative
threshold. -/
theorem relative_mul_ratio_le_one (hscale : 0 ≤ scale) (hv : 0 < v)
    (hsmall : tol.isSmall scale v = false) : tol.relative * (scale / v) ≤ 1 := by
  rw [← mul_div_assoc, div_le_one₀ hv]
  unfold isSmall at hsmall
  split at hsmall
  · next hzero =>
    -- Both are compared with the absolute threshold, so `scale` is below `v`.
    have hle : scale ≤ tol.absolute := (le_abs_self scale).trans (of_decide_eq_true hzero)
    have hlt : tol.absolute < v := by
      have hnot : ¬ |v| ≤ tol.absolute := of_decide_eq_false hsmall
      rwa [not_le, abs_of_pos hv] at hnot
    calc tol.relative * scale ≤ 1 * scale :=
          mul_le_mul_of_nonneg_right h.relative_le_one hscale
      _ = scale := one_mul scale
      _ ≤ v := hle.trans hlt.le
  · have hnot : ¬ |v| ≤ tol.relative * |scale| := of_decide_eq_false hsmall
    rw [not_le, abs_of_pos hv, abs_of_nonneg hscale] at hnot
    exact hnot.le

end IsProper

end Tolerance

/-! ## The standard parameters -/

section Standard

variable {K : Type} [Field K] [LinearOrder K] [Exact K]

theorem Scalar.tenPow_eq_pow (k : ℕ) : (Scalar.tenPow k : K) = 10 ^ k := by
  have hten : (Scalar.ten : K) = 10 := by
    show (1 + 1 + (1 + 1) + (1 + 1 + (1 + 1)) + (1 + 1) : K) = 10
    norm_num
  induction k with
  | zero => exact (pow_zero _).symm
  | succ k ih =>
    rw [pow_succ, ← ih, ← hten]
    rfl

variable [IsStrictOrderedRing K]

theorem Scalar.tenth_pos (k : ℕ) : (0 : K) < Scalar.tenth k := by
  show (0 : K) < 1 / (Scalar.tenPow k * Scalar.tenPow k)
  rw [Scalar.tenPow_eq_pow]
  positivity

theorem Scalar.tenth_le_one (k : ℕ) : (Scalar.tenth k : K) ≤ 1 := by
  show 1 / (Scalar.tenPow k * Scalar.tenPow k) ≤ (1 : K)
  have hten : (1 : K) ≤ 10 := by norm_num
  rw [Scalar.tenPow_eq_pow, div_le_one₀ (by positivity)]
  exact one_le_mul_of_one_le_of_one_le (one_le_pow₀ hten) (one_le_pow₀ hten)

theorem Tolerance.isProper_tenth (k l : ℕ) :
    (⟨Scalar.tenth k, Scalar.tenth l⟩ : Tolerance K).IsProper :=
  ⟨(Scalar.tenth_pos k).le, Scalar.tenth_le_one k, (Scalar.tenth_pos l).le⟩

end Standard

end QuadProg
