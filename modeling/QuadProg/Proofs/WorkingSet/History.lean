import QuadProg.Proofs.WorkingSet

/-!
# The history of a working set

Four operations change a working set: an index joins or leaves, or all of them do. Each keeps the
flags, the number of members and the index that joined last in step. What these three say after a
sequence of operations can be read off the sequence: an index is a member if the last operation on
it was a join, and the latest index is the one that the last effective join was for, unless it has
left since.

Everything is read from the end of the sequence, so the inductions add one operation there.
-/

namespace QuadProg

namespace WorkingSet

/-- An operation on a working set. -/
inductive Operation where
  /-- An index joins. -/
  | insert (i : ℕ)
  /-- An index leaves. -/
  | erase (i : ℕ)
  /-- All indices join. -/
  | insertAll
  /-- All indices leave. -/
  | clear
deriving DecidableEq

namespace Operation

/-- The operation concerns no index beyond the bound. -/
def InRange (n : ℕ) : Operation → Prop
  | insert i | erase i => i < n
  | insertAll | clear => True

/-- The operation concerns the index. -/
def Touches (i : ℕ) : Operation → Prop
  | insert j | erase j => j = i
  | insertAll | clear => True

/-- The operation makes indices join. -/
def Includes : Operation → Prop
  | insert _ | insertAll => True
  | erase _ | clear => False

/-- The working set after the operation. -/
def perform (w : WorkingSet) : Operation → WorkingSet
  | insert i => w.insert i
  | erase i => w.erase i
  | insertAll => w.insertAll
  | clear => w.clear

/-- The working set after the operation, refused for an index beyond the bound. -/
def perform? (w : WorkingSet) : Operation → Checked WorkingSet
  | insert i => w.insert? i
  | erase i => w.erase? i
  | insertAll => .ok w.insertAll
  | clear => .ok w.clear

/-- The operation makes a member of an index that was none. -/
def Joins (o : Operation) (w : WorkingSet) (i : ℕ) : Prop :=
  w.contains i = false ∧ (o.perform w).contains i = true

/-- Of the indices that the operation makes members, this one joins last. They join in ascending
order. -/
def JoinsLast (o : Operation) (w : WorkingSet) (i : ℕ) : Prop :=
  o.Joins w i ∧ ∀ j, o.Joins w j → j ≤ i

end Operation

/-- The working set after the operations, which start without members. -/
def after (n : ℕ) (ops : List Operation) : WorkingSet := ops.foldl Operation.perform (empty n)

/-- The last operation on the index made it join. -/
def LastIncluded (ops : List Operation) (i : ℕ) : Prop :=
  ∃ earlier o later, ops = earlier ++ o :: later ∧ o.Touches i ∧ o.Includes ∧
    ∀ o' ∈ later, ¬ o'.Touches i

/-- Since the indices left all at once for the last time, the last of the operations that made a
member of some index did so for this one, and no later operation has made it leave. -/
def LastJoined (n : ℕ) (ops : List Operation) (i : ℕ) : Prop :=
  ∃ earlier o later, ops = earlier ++ o :: later ∧ o.JoinsLast (after n earlier) i ∧
    Operation.clear ∉ later ∧ Operation.erase i ∉ later ∧
    ∀ passed o' rest, later = passed ++ o' :: rest →
      ∀ j, ¬ o'.Joins (after n (earlier ++ o :: passed)) j

/-! ## One operation -/

section Step

variable {w : WorkingSet} {o : Operation} {i : ℕ}

theorem count_foldl_insert (w : WorkingSet) (is : List ℕ) :
    (is.foldl WorkingSet.insert w).count = w.count := by
  induction is generalizing w with
  | nil => rfl
  | cons i rest ih => rw [List.foldl_cons, ih, count_insert]

/-- After the first indices have joined in turn, they are members beside those before. -/
theorem contains_foldl_insert (w : WorkingSet) (m i : ℕ) :
    ((List.range m).foldl WorkingSet.insert w).contains i =
      (w.contains i || (decide (i < m) && decide (i < w.count))) := by
  induction m with
  | zero => simp
  | succ m ih =>
    rw [List.range_succ, List.foldl_append, List.foldl_cons, List.foldl_nil, contains_insert, ih,
      count_foldl_insert]
    grind

theorem contains_insertAll (w : WorkingSet) (i : ℕ) :
    w.insertAll.contains i = decide (i < w.count) := by
  rw [insertAll, contains_foldl_insert, Bool.and_self]
  by_cases hi : i < w.count
  · simp [hi]
  · have hout : w.contains i = false := by
      rw [Bool.eq_false_iff]
      exact fun h => hi (lt_count_of_contains h)
    simp [hi, hout]

@[simp] theorem count_perform (o : Operation) (w : WorkingSet) : (o.perform w).count = w.count := by
  cases o with
  | insert i => exact count_insert w i
  | erase i => exact count_erase w i
  | insertAll => exact count_foldl_insert w _
  | clear => exact count_clear w

/-- An operation decides the membership of the indices that it concerns. -/
theorem contains_perform_iff :
    (o.perform w).contains i = true ↔
      i < w.count ∧ (o.Touches i ∧ o.Includes ∨ ¬ o.Touches i ∧ w.contains i = true) := by
  have hlt : w.contains i = true → i < w.count := lt_count_of_contains
  cases o with
  | insert j =>
    simp only [Operation.perform, Operation.Touches, Operation.Includes, contains_insert]
    grind
  | erase j =>
    simp only [Operation.perform, Operation.Touches, Operation.Includes, contains_erase]
    grind
  | insertAll => simp [Operation.perform, Operation.Touches, Operation.Includes, contains_insertAll]
  | clear => simp [Operation.perform, Operation.Touches, Operation.Includes, clear]

/-- Only an operation that lets indices join makes a member of one. -/
theorem joins_iff :
    o.Joins w i ↔ w.contains i = false ∧ i < w.count ∧ o.Touches i ∧ o.Includes := by
  rw [Operation.Joins, contains_perform_iff]
  grind

/-- The indices below `m` that were no members join one after the other, so the latest is the
greatest of them. -/
theorem latest_foldl_insert {m : ℕ} (hm : m ≤ w.count) :
    ((List.range m).foldl WorkingSet.insert w).latest = some i ↔
      (i < m ∧ w.contains i = false ∧ ∀ j < m, w.contains j = false → j ≤ i) ∨
        (w.latest = some i ∧ ∀ j < m, w.contains j = true) := by
  induction m with
  | zero => simp
  | succ m ih =>
    have ih := ih (by omega)
    have hcontains := contains_foldl_insert w m m
    rw [List.range_succ, List.foldl_append, List.foldl_cons, List.foldl_nil]
    simp only [lt_irrefl, decide_false, Bool.false_and, Bool.or_false] at hcontains
    rw [WorkingSet.insert, hcontains, count_foldl_insert]
    by_cases hfresh : w.contains m = false
    · rw [if_pos ⟨by omega, hfresh⟩]
      grind
    · rw [if_neg fun h => hfresh h.2, ih]
      grind

/-- The latest index after an operation is the one that joined last. If none joined, it is the one
before, unless this one has left. -/
theorem latest_perform_iff (hlatest : ∀ j, w.latest = some j → w.contains j = true) :
    (o.perform w).latest = some i ↔
      o.JoinsLast w i ∨
        (w.latest = some i ∧ o ≠ .clear ∧ o ≠ .erase i ∧ ∀ j, ¬ o.Joins w j) := by
  cases o with
  | insert k =>
    simp only [Operation.JoinsLast, joins_iff, Operation.perform, Operation.Touches,
      Operation.Includes, WorkingSet.insert]
    by_cases hk : k < w.count ∧ w.contains k = false
    · rw [if_pos hk]
      grind
    · rw [if_neg hk]
      grind
  | erase k =>
    simp only [Operation.JoinsLast, joins_iff, Operation.perform, Operation.Includes,
      WorkingSet.erase]
    by_cases hk : w.contains k = true
    · rw [if_pos hk]
      grind
    · rw [if_neg hk]
      have := hlatest i
      grind
  | insertAll =>
    simp only [Operation.JoinsLast, joins_iff, Operation.perform, Operation.Touches,
      Operation.Includes, insertAll, latest_foldl_insert le_rfl]
    grind
  | clear =>
    simp [Operation.JoinsLast, joins_iff, Operation.perform, Operation.Includes, clear, empty]

end Step

/-! ## What every operation keeps -/

/-- The number kept is that of the members, and the latest index is one of them. -/
structure Consistent (w : WorkingSet) : Prop where
  counted : w.Counted
  latest : ∀ i, w.latest = some i → w.contains i = true

theorem consistent_empty (n : ℕ) : (empty n).Consistent where
  counted := counted_empty n
  latest _ h := nomatch h

namespace Consistent

variable {w : WorkingSet}

theorem insert (h : w.Consistent) (i : ℕ) : (w.insert i).Consistent where
  counted := h.counted.insert i
  latest j hj := by
    rw [contains_insert]
    by_cases hi : i < w.count ∧ w.contains i = false
    · rw [WorkingSet.insert, if_pos hi] at hj
      obtain rfl := Option.some.inj hj
      simp [hi.1]
    · rw [WorkingSet.insert, if_neg hi] at hj
      rw [h.latest j hj, Bool.true_or]

theorem erase (h : w.Consistent) (i : ℕ) : (w.erase i).Consistent where
  counted := by
    by_cases hi : w.contains i = true
    · exact (h.counted.erase hi).1
    · rw [WorkingSet.erase, if_neg hi]
      exact h.counted
  latest j hj := by
    rw [contains_erase]
    by_cases hi : w.contains i = true
    · rw [WorkingSet.erase, if_pos hi] at hj
      have := h.latest j
      grind
    · rw [WorkingSet.erase, if_neg hi] at hj
      have := h.latest j hj
      grind

theorem perform (h : w.Consistent) (o : Operation) : (o.perform w).Consistent := by
  cases o with
  | insert i => exact h.insert i
  | erase i => exact h.erase i
  | insertAll =>
    exact List.foldlRecOn (motive := Consistent) _ _ h fun _ hv i _ => hv.insert i
  | clear => exact consistent_empty _

/-- The two parts share the indices below the bound, and the numbers count them. -/
theorem cardOthers_eq (h : w.Consistent) : w.cardOthers = w.others.length := by
  have hsplit := (List.filter_append_perm w.contains (List.range w.count)).length_eq
  have hcard := h.counted
  rw [List.length_append, List.length_range] at hsplit
  unfold Counted members at hcard
  unfold cardOthers others
  omega

end Consistent

/-! ## Sequences of operations -/

section Run

variable {n : ℕ} {ops : List Operation} {o : Operation} {i : ℕ}

theorem after_concat (n : ℕ) (ops : List Operation) (o : Operation) :
    after n (ops ++ [o]) = o.perform (after n ops) := by
  rw [after, List.foldl_append]
  rfl

@[simp] theorem count_after (n : ℕ) (ops : List Operation) : (after n ops).count = n := by
  induction ops using List.reverseRecOn with
  | nil => exact count_empty n
  | append_singleton ops o ih => rw [after_concat, count_perform, ih]

theorem consistent_after (n : ℕ) (ops : List Operation) : (after n ops).Consistent := by
  induction ops using List.reverseRecOn with
  | nil => exact consistent_empty n
  | append_singleton ops o ih =>
    rw [after_concat]
    exact ih.perform o

theorem perform?_eq (w : WorkingSet) (h : o.InRange w.count) :
    o.perform? w = .ok (o.perform w) := by
  cases o with
  | insert i => exact guarded_eq_ok h
  | erase i => exact guarded_eq_ok h
  | insertAll => rfl
  | clear => rfl

/-- Operations on indices below the bound are not refused. -/
theorem foldlM_perform? (n : ℕ) (h : ∀ o ∈ ops, o.InRange n) :
    ops.foldlM Operation.perform? (empty n) = .ok (after n ops) := by
  induction ops using List.reverseRecOn with
  | nil => rfl
  | append_singleton ops o ih =>
    have hbefore := ih fun o' ho' => h o' (List.mem_append_left _ ho')
    have hlast : o.InRange (after n ops).count := by
      rw [count_after]
      exact h o (by simp)
    rw [List.foldlM_append, hbefore, after_concat]
    change (List.foldlM Operation.perform? (after n ops) [o]) = _
    rw [List.foldlM_cons, perform?_eq _ hlast]
    rfl

/-- A sequence that is cut ends in its last part, or in the operation before an empty one. -/
theorem concat_eq_append_cons {earlier later : List Operation} {o' : Operation} :
    ops ++ [o] = earlier ++ o' :: later ↔
      (later = [] ∧ ops = earlier ∧ o = o') ∨
        ∃ later', later = later' ++ [o] ∧ ops = earlier ++ o' :: later' := by
  constructor
  · intro h
    rcases List.eq_nil_or_concat later with rfl | ⟨later', last, rfl⟩
    · obtain ⟨hops, ho⟩ := List.append_inj' h rfl
      exact Or.inl ⟨rfl, hops, List.head_eq_of_cons_eq ho⟩
    · rw [List.concat_eq_append, ← List.cons_append, ← List.append_assoc] at h
      obtain ⟨hops, ho⟩ := List.append_inj' h rfl
      obtain rfl := List.head_eq_of_cons_eq ho
      exact Or.inr ⟨later', List.concat_eq_append, hops⟩
  · rintro (⟨rfl, rfl, rfl⟩ | ⟨later', rfl, rfl⟩)
    · rfl
    · simp

theorem not_lastIncluded_nil : ¬ LastIncluded [] i := by
  rintro ⟨earlier, o, later, h, -⟩
  simp at h

theorem lastIncluded_concat :
    LastIncluded (ops ++ [o]) i ↔
      o.Touches i ∧ o.Includes ∨ ¬ o.Touches i ∧ LastIncluded ops i := by
  constructor
  · rintro ⟨earlier, o', later, hcut, htouches, hincludes, hlater⟩
    rcases concat_eq_append_cons.1 hcut with ⟨rfl, rfl, rfl⟩ | ⟨later', rfl, rfl⟩
    · exact Or.inl ⟨htouches, hincludes⟩
    · have hrest : ∀ p ∈ later', ¬ p.Touches i := fun p hp => hlater p (List.mem_append_left _ hp)
      exact Or.inr ⟨hlater o (by simp), earlier, o', later', rfl, htouches, hincludes, hrest⟩
  · rintro (⟨htouches, hincludes⟩ | ⟨hnot, earlier, o', later, rfl, htouches, hincludes, hlater⟩)
    · exact ⟨ops, o, [], rfl, htouches, hincludes, by simp⟩
    · refine ⟨earlier, o', later ++ [o], by simp, htouches, hincludes, ?_⟩
      intro p hp
      rcases List.mem_append.1 hp with hp | hp
      · exact hlater p hp
      · rwa [List.mem_singleton.1 hp]

theorem contains_after_iff (hi : i < n) :
    (after n ops).contains i = true ↔ LastIncluded ops i := by
  induction ops using List.reverseRecOn with
  | nil => simp [after, not_lastIncluded_nil]
  | append_singleton ops o ih =>
    rw [after_concat, contains_perform_iff, lastIncluded_concat, ih, count_after, and_iff_right hi]

theorem not_lastJoined_nil : ¬ LastJoined n [] i := by
  rintro ⟨earlier, o, later, h, -⟩
  simp at h

theorem lastJoined_concat :
    LastJoined n (ops ++ [o]) i ↔
      o.JoinsLast (after n ops) i ∨
        (LastJoined n ops i ∧ o ≠ .clear ∧ o ≠ .erase i ∧ ∀ j, ¬ o.Joins (after n ops) j) := by
  constructor
  · rintro ⟨earlier, o', later, hcut, hjoins, hclear, herase, hlater⟩
    rcases concat_eq_append_cons.1 hcut with ⟨rfl, rfl, rfl⟩ | ⟨later', rfl, rfl⟩
    · exact Or.inl hjoins
    · simp only [List.mem_append, List.mem_singleton, not_or] at hclear herase
      refine Or.inr ⟨⟨earlier, o', later', rfl, hjoins, hclear.1, herase.1, ?_⟩,
        Ne.symm hclear.2, Ne.symm herase.2, hlater later' o [] rfl⟩
      rintro passed p rest rfl
      exact hlater passed p (rest ++ [o]) (by simp)
  · rintro (hjoins | ⟨hjoined, hclear', herase', hnone⟩)
    · exact ⟨ops, o, [], rfl, hjoins, by simp, by simp, by simp⟩
    · obtain ⟨earlier, o', later, rfl, hjoins, hclear, herase, hlater⟩ := hjoined
      refine ⟨earlier, o', later ++ [o], by simp, hjoins, ?_, ?_, ?_⟩
      · simp [hclear, Ne.symm hclear']
      · simp [herase, Ne.symm herase']
      · intro passed p rest hcut
        rcases concat_eq_append_cons.1 hcut with ⟨rfl, rfl, rfl⟩ | ⟨rest', rfl, rfl⟩
        · exact hnone
        · exact hlater passed p rest' rfl

theorem latest_after_iff : (after n ops).latest = some i ↔ LastJoined n ops i := by
  induction ops using List.reverseRecOn with
  | nil => exact iff_of_false (fun h => nomatch h) not_lastJoined_nil
  | append_singleton ops o ih =>
    rw [after_concat, latest_perform_iff (consistent_after n ops).latest, lastJoined_concat, ih]

end Run

/-- After any sequence of operations on indices below the bound, none of which is refused: the
members and the others are listed in ascending order and share the indices below the bound; the two
numbers count them, and there is something to count down whenever an index can leave; the members
are the indices that the last operation on them made join; and the latest index is the one that the
last effective join was for, unless it has left since. -/
theorem partition_of_history (n : ℕ) (ops : List Operation) (h : ∀ o ∈ ops, o.InRange n) :
    let w := after n ops
    ops.foldlM Operation.perform? (empty n) = .ok w ∧
      (w.members.Pairwise (· < ·) ∧ w.others.Pairwise (· < ·) ∧ w.members.Disjoint w.others ∧
        ∀ i, i ∈ w.members ∨ i ∈ w.others ↔ i < n) ∧
      (w.card = w.members.length ∧ w.cardOthers = w.others.length ∧ w.card ≤ w.count ∧
        ∀ i, w.contains i = true → 0 < w.card) ∧
      (∀ i < n, i ∈ w.members ↔ LastIncluded ops i) ∧
      ∀ i, w.latest = some i ↔ LastJoined n ops i := by
  intro w
  have hw : w.Consistent := consistent_after n ops
  have hcount : w.count = n := count_after n ops
  have hcard : w.card = w.members.length := hw.counted
  refine ⟨foldlM_perform? n h, ⟨w.sorted_members, List.pairwise_lt_range.filter _, ?_, ?_⟩,
    ⟨hcard, hw.cardOthers_eq, ?_, ?_⟩, ?_, fun i => latest_after_iff⟩
  · intro i hmember hother
    rw [mem_members] at hmember
    rw [mem_others, hmember] at hother
    exact Bool.noConfusion hother.2
  · intro i
    rw [mem_members, mem_others, hcount]
    have hlt : w.contains i = true → i < n := fun hi => (lt_count_of_contains hi).trans_eq hcount
    grind
  · rw [hcard]
    exact (List.length_filter_le _ _).trans_eq List.length_range
  · intro i hi
    rw [hcard]
    exact List.length_pos_of_mem (mem_members.2 hi)
  · intro i hi
    rw [mem_members]
    exact contains_after_iff hi

/-- Indices join, leave and join all at once; the latest one is still a member in the end. -/
def mixedOperations : List Operation :=
  [.insert 3, .insert 1, .erase 0, .erase 1, .insertAll, .erase 2]

theorem partition_of_history_mixed :
    (∀ o ∈ mixedOperations, o.InRange 5) ∧
      mixedOperations.foldlM Operation.perform? (empty 5) = .ok (after 5 mixedOperations) ∧
      (after 5 mixedOperations).members = [0, 1, 3, 4] ∧
      LastIncluded mixedOperations 1 ∧ ¬ LastIncluded mixedOperations 2 ∧
      LastJoined 5 mixedOperations 4 := by
  have hrange : ∀ o ∈ mixedOperations, o.InRange 5 := by
    simp [mixedOperations, Operation.InRange]
  have hmembers : (after 5 mixedOperations).members = [0, 1, 3, 4] := by decide
  have hlatest : (after 5 mixedOperations).latest = some 4 := by decide
  obtain ⟨hrun, -, -, hincluded, hjoined⟩ := partition_of_history 5 mixedOperations hrange
  refine ⟨hrange, hrun, hmembers, ?_, ?_, (hjoined 4).1 hlatest⟩
  · rw [← hincluded 1 (by decide), hmembers]
    decide
  · rw [← hincluded 2 (by decide), hmembers]
    decide

end WorkingSet

end QuadProg
