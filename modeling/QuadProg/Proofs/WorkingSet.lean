import Mathlib
import QuadProg.WorkingSet

/-!
# The members of a working set

The members are listed once each, and the number that a working set keeps is that of its members,
whatever joined and left it.
-/

namespace QuadProg

namespace WorkingSet

theorem nodup_members (w : WorkingSet) : w.members.Nodup := List.nodup_range.filter _

theorem sorted_members (w : WorkingSet) : w.members.Pairwise (· < ·) :=
  List.pairwise_lt_range.filter _

/-- The number kept is that of the members. -/
def Counted (w : WorkingSet) : Prop := w.card = w.members.length

theorem counted_empty (n : ℕ) : (empty n).Counted := by
  have hnil : (empty n).members = [] := by
    apply List.eq_nil_iff_forall_not_mem.2
    intro i hi
    rw [mem_members, contains_empty] at hi
    cases hi
  rw [Counted, hnil]
  rfl

theorem members_insert_perm {w : WorkingSet} {i : ℕ} (hi : i < w.count)
    (hnot : w.contains i = false) : (w.insert i).members.Perm (i :: w.members) := by
  have hfresh : i ∉ w.members := by
    rw [mem_members, hnot]
    exact Bool.false_ne_true
  apply (List.perm_ext_iff_of_nodup (nodup_members _) (w.nodup_members.cons hfresh)).2
  intro j
  rw [mem_members, contains_insert, List.mem_cons, mem_members, Bool.or_eq_true]
  by_cases hij : i = j
  · simp [hij, hij ▸ hi]
  · simp [hij, Ne.symm hij]

theorem members_perm_erase {w : WorkingSet} {i : ℕ} (h : w.contains i = true) :
    w.members.Perm (i :: (w.erase i).members) := by
  have hgone : i ∉ (w.erase i).members := by
    rw [mem_members, contains_erase]
    simp
  apply (List.perm_ext_iff_of_nodup w.nodup_members ((nodup_members _).cons hgone)).2
  intro j
  rw [List.mem_cons, mem_members, mem_members, contains_erase]
  by_cases hij : i = j
  · subst hij
    simp [h]
  · simp [hij, Ne.symm hij]

theorem Counted.insert {w : WorkingSet} (h : w.Counted) (i : ℕ) : (w.insert i).Counted := by
  by_cases hi : i < w.count ∧ w.contains i = false
  · have hcard : (w.insert i).card = w.card + 1 := by rw [WorkingSet.insert, if_pos hi]
    rw [Counted, hcard, (members_insert_perm hi.1 hi.2).length_eq, List.length_cons, h]
  · rw [WorkingSet.insert, if_neg hi]
    exact h

theorem Counted.erase {w : WorkingSet} (h : w.Counted) {i : ℕ} (hi : w.contains i = true) :
    (w.erase i).Counted ∧ (w.erase i).card + 1 = w.card := by
  have hcard : (w.erase i).card = w.card - 1 := by rw [WorkingSet.erase, if_pos hi]
  have hlength := (members_perm_erase hi).length_eq
  rw [List.length_cons] at hlength
  unfold Counted at h ⊢
  omega

end WorkingSet

end QuadProg
