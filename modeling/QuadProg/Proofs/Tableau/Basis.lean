import Mathlib
import QuadProg.Tableau.Pivot

/-!
# Bookkeeping of the basis

The basis and the set of basic columns are two views of one assignment of variables to rows. They
agree in every tableau that pivots on columns outside of the set lead to, whatever the scalars are.
-/

namespace QuadProg

namespace Tableau

variable {α : Type} [Scalar α]

/-- The basic variable of the row `r`: its column, or a negative number. -/
def basic (t : Tableau α) (r : ℕ) : ℤ := t.basis.getD r 0

/-- The basis and the set of basic columns agree. -/
structure Bookkept (t : Tableau α) : Prop where
  /-- Every row has a basic variable. -/
  size_basis : t.basis.size = t.m
  /-- Every column of the program may be basic. -/
  count_columns : t.columns.count = t.n
  /-- An artificial variable is basic in its own row only. -/
  artificial : ∀ r < t.m, t.basic r < 0 → t.basic r = r - t.m
  /-- Any other basic variable is a column of the program. -/
  structural : ∀ r < t.m, 0 ≤ t.basic r → t.basic r < t.n
  /-- The set holds the basic columns. -/
  contains_iff : ∀ j : ℕ, t.columns.contains j = true ↔ ∃ r < t.m, t.basic r = j
  /-- A column is basic in one row at most. -/
  injective : ∀ r < t.m, ∀ s < t.m, 0 ≤ t.basic r → t.basic r = t.basic s → r = s

omit [Scalar α] in
theorem isArtificial_iff (t : Tableau α) (r : ℕ) : t.isArtificial r = true ↔ t.basic r < 0 := by
  simp [isArtificial, basic]

theorem basic_pivot {t : Tableau α} {row : ℕ} (col r : ℕ) (hrow : row < t.basis.size) :
    (t.pivot row col).basic r = if r = row then (col : ℤ) else t.basic r := by
  by_cases hr : r = row
  · subst hr
    simp [basic, pivot, Array.getD, hrow]
  · by_cases hlt : r < t.basis.size
    · simp [basic, pivot, Array.getD, hlt, hr, Ne.symm hr]
    · simp [basic, pivot, Array.getD, hlt, hr]

/-- After a pivot the basic columns are those before without the one that left, and the one that
entered. -/
theorem contains_columns_pivot {t : Tableau α} {row : ℕ} (col j : ℕ) (hrow : row < t.basis.size) :
    (t.pivot row col).columns.contains j = true ↔
      (t.columns.contains j = true ∧ t.basic row ≠ j) ∨ (col = j ∧ col < t.columns.count) := by
  have hbasic : t.basis.getD row (-1) = t.basic row := by simp [basic, Array.getD, hrow]
  by_cases hleave : 0 ≤ t.basic row
  · have htoNat : (t.basic row).toNat ≠ j ↔ t.basic row ≠ j := by omega
    simp [pivot, hbasic, hleave, WorkingSet.contains_insert, WorkingSet.contains_erase, htoNat]
  · have hne : t.basic row ≠ j := by omega
    simp [pivot, hbasic, hleave, WorkingSet.contains_insert, hne]

theorem ofStandardForm?_eq_ok {a b c : Mat α} (hroom : Fits α a.rows a.cols)
    (hb : b.size = (a.rows, 1)) (hc : c.size = (a.cols, 1)) (h : ∀ r < a.rows, 0 ≤ b.get r 0) :
    ofStandardForm? a b c = .ok (ofStandardForm a b c) := by
  unfold ofStandardForm?
  rw [require_eq_ok ⟨hb, hc⟩, require_eq_ok hroom,
    guarded_eq_ok fun r hr => h r (List.mem_range.1 hr)]
  rfl

theorem ofStandardForm?_refused {a b c : Mat α} (hroom : ¬ Fits α a.rows a.cols)
    (hb : b.size = (a.rows, 1)) (hc : c.size = (a.cols, 1)) :
    ofStandardForm? a b c = .error .tooLarge := by
  unfold ofStandardForm?
  rw [require_eq_ok ⟨hb, hc⟩, require, if_neg hroom]
  rfl

theorem eq_of_ofStandardForm? {a b c : Mat α} {t : Tableau α} (h : ofStandardForm? a b c = .ok t) :
    ofStandardForm a b c = t := by
  obtain ⟨-, -, h⟩ := Checked.bind_eq_ok_iff.1 h
  obtain ⟨-, -, hguard⟩ := Checked.bind_eq_ok_iff.1 h
  exact (guarded_eq_ok_iff.1 hguard).2

theorem bookkept_ofStandardForm (a b c : Mat α) : (ofStandardForm a b c).Bookkept := by
  have hbasic : ∀ r < a.rows, (ofStandardForm a b c).basic r = r - a.rows := by
    intro r hr
    simp [basic, ofStandardForm, Array.getD, hr]
  have hneg : ∀ r < a.rows, (ofStandardForm a b c).basic r < 0 := by
    intro r hr
    rw [hbasic r hr]
    omega
  refine ⟨by simp [ofStandardForm], by simp [ofStandardForm], fun r hr _ => hbasic r hr,
    fun r hr h => absurd (hneg r hr) (by omega), fun j => ?_,
    fun r hr s _ h => absurd (hneg r hr) (by omega)⟩
  constructor
  · intro h
    simp [ofStandardForm] at h
  · rintro ⟨r, hr, h⟩
    have := hneg r hr
    omega

/-- A pivot on a column that is basic in no other row keeps the views in agreement. -/
theorem Bookkept.pivot {t : Tableau α} (h : t.Bookkept) {row col : ℕ} (hrow : row < t.m)
    (hcol : col < t.n) (hown : ∀ r < t.m, t.basic r = col → r = row) :
    (t.pivot row col).Bookkept := by
  have hsize : row < t.basis.size := by rw [h.size_basis]; exact hrow
  constructor
  case size_basis => simp [h.size_basis]
  case count_columns => simp [h.count_columns]
  case artificial =>
    intro r hr hneg
    rw [basic_pivot col r hsize] at hneg ⊢
    split at hneg
    · omega
    · next hne => rw [if_neg hne]; exact h.artificial r hr hneg
  case structural =>
    intro r hr hnn
    rw [basic_pivot col r hsize] at hnn ⊢
    split at hnn
    · next he => rw [if_pos he]; exact_mod_cast hcol
    · next hne => rw [if_neg hne]; exact h.structural r hr hnn
  case contains_iff =>
    intro j
    rw [contains_columns_pivot col j hsize, h.contains_iff j]
    constructor
    · rintro (⟨⟨r, hr, hrj⟩, hne⟩ | ⟨rfl, -⟩)
      · refine ⟨r, hr, ?_⟩
        have hrr : r ≠ row := fun he => hne (he ▸ hrj)
        rw [basic_pivot col r hsize, if_neg hrr, hrj]
      · exact ⟨row, hrow, by rw [basic_pivot col row hsize, if_pos rfl]⟩
    · rintro ⟨r, hr, hrj⟩
      rw [basic_pivot col r hsize] at hrj
      split at hrj
      · exact Or.inr ⟨by exact_mod_cast hrj, by rw [h.count_columns]; exact hcol⟩
      · next hne =>
        refine Or.inl ⟨⟨r, hr, hrj⟩, fun he => hne ?_⟩
        exact h.injective r hr row hrow (by omega) (by rw [hrj, he])
  case injective =>
    intro r hr s hs hnn he
    rw [basic_pivot col r hsize] at hnn he
    rw [basic_pivot col s hsize] at he
    split at he
    · next hr' =>
      split at he
      · next hs' => rw [hr', hs']
      · next hs' => exact absurd (hown s hs he.symm) hs'
    · next hr' =>
      rw [if_neg hr'] at hnn
      split at he
      · exact absurd (hown r hr he) hr'
      · exact h.injective r hr s hs hnn he

end Tableau

end QuadProg
