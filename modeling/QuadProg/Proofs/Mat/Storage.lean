import QuadProg.Factor.Cholesky
import QuadProg.Factor.Rank
import QuadProg.Kkt
import QuadProg.Mat.Kernel
import QuadProg.Proofs.Exact

/-!
# The way of storing

A packed matrix and the same matrix in full storage have the same size and the same entries, and
whatever is computed from a matrix is computed from these: products, whichever kernel runs,
rearrangements, factors and ranks. No law of the scalars is used, since no sum changes its order.
-/

namespace QuadProg

variable {α : Type} [Scalar α]

theorem Scalar.sumTo_congr {f g : ℕ → α} {n : ℕ} (h : ∀ i < n, f i = g i) :
    sumTo f n = sumTo g n := by
  induction n with
  | zero => rfl
  | succ n ih => rw [sumTo, sumTo, ih fun i hi => h i (by omega), h n (by omega)]

omit [Scalar α] in
theorem guarded_congr {p q : Prop} [Decidable p] [Decidable q] {fault : Fault} {v w : α}
    (hpq : p ↔ q) (h : p → v = w) : guarded p fault v = guarded q fault w := by
  by_cases hp : p
  · rw [guarded_eq_ok hp, guarded_eq_ok (hpq.1 hp), h hp]
  · rw [guarded, guarded, if_neg hp, if_neg (mt hpq.2 hp)]

omit [Scalar α] in
theorem Vec.mapIdx_congr {f g : ℕ → α → α} {y : Vec α} (h : ∀ r < y.size, ∀ v, f r v = g r v) :
    y.mapIdx f = y.mapIdx g := by
  refine Array.ext (by simp) fun r hr _ => ?_
  rw [Array.size_mapIdx] at hr
  simp only [Array.getElem_mapIdx, h r hr]

/-! ## Cells -/

theorem Shape.exists_index_eq {s : Shape} {i : ℕ} (h : i < s.length) :
    ∃ r c, s.Contains r c ∧ s.index r c = i := by
  cases s with
  | general rows cols =>
    have hpos : 0 < rows := Nat.pos_of_mul_pos_right (Nat.zero_lt_of_lt h)
    refine ⟨i % rows, i / rows, ⟨Nat.mod_lt i hpos, Nat.div_lt_of_lt_mul h⟩, ?_⟩
    rw [index, Nat.mul_comm, Nat.div_add_mod]
  | packed n =>
    induction n with
    | zero => exact absurd h (Nat.not_lt_zero i)
    | succ n ih =>
      by_cases hlast : i < triangle n
      · obtain ⟨r, c, ⟨hr, hc⟩, hindex⟩ := ih hlast
        exact ⟨r, c, ⟨Nat.lt_succ_of_lt hr, Nat.lt_succ_of_lt hc⟩, hindex⟩
      · have hlt : i < triangle n + (n + 1) := by rwa [length, triangle_succ] at h
        refine ⟨i - triangle n, n, ⟨?_, Nat.lt_succ_self n⟩, ?_⟩
        · rw [rows]
          omega
        · rw [index, if_pos (by omega)]
          omega

namespace Mat

theorem get_eq_cell {a : Mat α} {r c : ℕ} (h : a.shape.Contains r c) :
    a.get r c = a.data.getD (a.shape.index r c) 0 :=
  if_pos h

/-- The stored entries are the entries at the positions of the matrix. -/
theorem mem_data_iff {a : Mat α} {v : α} :
    v ∈ a.data ↔ ∃ r c, a.shape.Contains r c ∧ a.get r c = v := by
  have hcell : ∀ {i : ℕ} (hi : i < a.data.size), a.data.getD i 0 = a.data[i] := fun hi => by
    rw [Array.getD, dif_pos hi]
    rfl
  constructor
  · intro hv
    obtain ⟨i, hi, rfl⟩ := Array.mem_iff_getElem.1 hv
    obtain ⟨r, c, hrc, hindex⟩ := Shape.exists_index_eq (a.size_data ▸ hi)
    exact ⟨r, c, hrc, by rw [get_eq_cell hrc, hindex, hcell hi]⟩
  · rintro ⟨r, c, hrc, rfl⟩
    have hi : a.shape.index r c < a.data.size := a.size_data ▸ Shape.index_lt_length hrc
    rw [get_eq_cell hrc, hcell hi]
    exact Array.getElem_mem hi

/-- Matrices stored alike that hold the same entries are equal. -/
theorem ext_get {a b : Mat α} (hshape : a.shape = b.shape)
    (h : ∀ r c, a.shape.Contains r c → a.get r c = b.get r c) : a = b := by
  obtain ⟨shape, x, hx⟩ := a
  obtain ⟨shape', y, hy⟩ := b
  obtain rfl : shape = shape' := hshape
  have hdata : x = y := by
    refine Vec.ext_entry (hx.trans hy.symm) fun i hi => ?_
    obtain ⟨r, c, hrc, rfl⟩ := Shape.exists_index_eq (hi.trans_eq hx)
    have hentry := h r c hrc
    rwa [get_eq_cell hrc, get_eq_cell hrc] at hentry
  subst hdata
  rfl

omit [Scalar α] in
theorem ofArray?_data {a : Mat α} {s : Shape} (h : a.shape = s) : ofArray? s a.data = .ok a := by
  obtain rfl := h
  rw [ofArray?, dif_pos a.size_data]

/-- The columns of a full matrix are all that there is to it. -/
theorem ext_column {a b : Mat α} {rows cols : ℕ} (ha : a.shape = .general rows cols)
    (hb : b.shape = .general rows cols) (h : ∀ c < cols, a.column c = b.column c) : a = b := by
  refine ext_get (ha.trans hb.symm) fun r c hrc => ?_
  rw [ha] at hrc
  have hra : r < a.rows := by rw [Mat.rows, ha]; exact hrc.1
  have hrb : r < b.rows := by rw [Mat.rows, hb]; exact hrc.1
  rw [← entry_column hra, ← entry_column hrb, h c hrc.2]

/-! ## Kernels -/

section Products

theorem packedCell_eq_index (n r c : ℕ) :
    Kernel.packedCell r c = (Shape.packed n).index r c := by
  rw [Kernel.packedCell, Shape.index]
  rcases lt_trichotomy r c with hlt | rfl | hlt
  · rw [if_pos hlt, if_pos hlt.le]
  · rw [if_neg (lt_irrefl r), if_pos le_rfl]
  · rw [if_neg hlt.not_gt, if_neg hlt.not_ge]

variable {a : Mat α} {s t : α} {x y : Vec α}

theorem loop_eq {cell : ℕ → ℕ → ℕ} {entry : ℕ → ℕ → α} {n : ℕ} (hx : x.size = n)
    (h : ∀ r < y.size, ∀ c < n, entry r c = a.data.getD (cell r c) 0) :
    Kernel.loop cell a.data s x t y =
      y.mapIdx fun r v => s * Scalar.sumTo (fun c => entry r c * x.entry c) n + t * v := by
  subst hx
  refine Vec.mapIdx_congr fun r hr v => ?_
  rw [Scalar.sumTo_congr fun c hc => by rw [← h r hr c hc]]

theorem transform_eq_kernel (hx : x.size = a.cols) (hy : y.size = a.rows) :
    Kernel.transform false a s x t y = a.transform s x t y := by
  have hcell : ∀ r < y.size, ∀ c < a.cols, a.get r c = a.data.getD (a.shape.index r c) 0 :=
    fun r hr c hc => get_eq_cell ⟨hr.trans_eq hy, hc⟩
  unfold Kernel.transform
  split
  · next rows cols hshape =>
    refine loop_eq hx fun r hr c hc => ?_
    rw [hcell r hr c hc, hshape]
    rfl
  · next n hshape =>
    refine loop_eq hx fun r hr c hc => ?_
    rw [hcell r hr c hc, hshape, packedCell_eq_index n]

theorem transformTranspose_eq_kernel (hx : x.size = a.rows) (hy : y.size = a.cols) :
    Kernel.transform true a s x t y = a.transformTranspose s x t y := by
  have hcell : ∀ c < y.size, ∀ r < a.rows, a.get r c = a.data.getD (a.shape.index r c) 0 :=
    fun c hc r hr => get_eq_cell ⟨hr, hc.trans_eq hy⟩
  unfold Kernel.transform
  split
  · next rows cols hshape =>
    refine loop_eq hx fun c hc r hr => ?_
    rw [hcell c hc r hr, hshape]
    rfl
  · next n hshape =>
    refine loop_eq hx fun c hc r hr => ?_
    rw [hcell c hc r hr, hshape, packedCell_eq_index n, Shape.index_packed_comm]

variable (a s x t y)

/-- The kernels compute the products. -/
theorem kernel_transform?_eq (transposed : Bool) :
    Kernel.transform? transposed a s x t y =
      if transposed then a.transformTranspose? s x t y else a.transform? s x t y := by
  cases transposed
  · exact guarded_congr Iff.rfl fun h => transform_eq_kernel h.1 h.2
  · exact guarded_congr Iff.rfl fun h => transformTranspose_eq_kernel h.1 h.2

end Products

/-! ## Full storage -/

/-- The matrix in full storage if `flag` is set. -/
def expandIf (flag : Bool) (a : Mat α) : Mat α := if flag then a.toGeneral else a

variable (a b : Mat α)

theorem toGeneral_toGeneral : a.toGeneral.toGeneral = a.toGeneral := by
  rw [toGeneral, shape_toGeneral]

@[simp] theorem toGeneral_expandIf (flag : Bool) : (a.expandIf flag).toGeneral = a.toGeneral := by
  cases flag
  · rfl
  · exact a.toGeneral_toGeneral

@[simp] theorem size_toGeneral : a.toGeneral.size = a.size :=
  Prod.ext a.rows_toGeneral a.cols_toGeneral

theorem contains_toGeneral (r c : ℕ) : a.toGeneral.shape.Contains r c ↔ a.shape.Contains r c := by
  rw [shape_toGeneral]
  rfl

@[simp] theorem get?_toGeneral (r c : ℕ) : a.toGeneral.get? r c = a.get? r c :=
  guarded_congr (a.contains_toGeneral r c) fun _ => a.get_toGeneral r c

theorem column_toGeneral (c : ℕ) : a.toGeneral.column c = a.column c := by
  refine Vec.ext_entry (by simp) fun r hr => ?_
  have hr : r < a.toGeneral.rows := hr.trans_eq (size_column _ c)
  rw [entry_column hr, entry_column (hr.trans_eq (rows_toGeneral a)), get_toGeneral]

theorem column?_toGeneral {c : ℕ} (hc : c < a.cols) :
    a.toGeneral.column? c = .ok (a.column c) := by
  have hfull : a.toGeneral.shape.isPacked = false := by rw [shape_toGeneral]; rfl
  rw [column?, require_eq_ok hfull, column_toGeneral]
  exact guarded_eq_ok (hc.trans_eq (cols_toGeneral a).symm)

/-- The storage of a matrix with one column is the same in either way of storing. -/
theorem data_toGeneral {a : Mat α} (h : a.cols = 1) : a.toGeneral.data = a.data := by
  have h' : a.toGeneral.cols = 1 := a.cols_toGeneral.trans h
  have hsize : a.toGeneral.data.size = a.rows := (size_data_of_cols h').trans a.rows_toGeneral
  refine Vec.ext_entry (hsize.trans (size_data_of_cols h).symm) fun r hr => ?_
  have hr : r < a.rows := hr.trans_eq hsize
  rw [entry_data h' (hr.trans_eq a.rows_toGeneral.symm), entry_data h hr, get_toGeneral]

@[simp] theorem isZero_toGeneral : a.toGeneral.isZero = a.isZero := by
  have hmem : ∀ v, v ∈ a.toGeneral.data ↔ v ∈ a.data := by
    intro v
    simp only [mem_data_iff, contains_toGeneral, get_toGeneral]
  rw [Bool.eq_iff_iff, isZero, isZero]
  simp only [Array.all_eq_true_iff_forall_mem, hmem]

@[simp] theorem rank_toGeneral (relative : α) : a.toGeneral.rank relative = a.rank relative := by
  simp only [rank, rows_toGeneral, cols_toGeneral, isZero_toGeneral, toGeneral_toGeneral]

@[simp] theorem select?_toGeneral (idx : List ℕ) : a.toGeneral.select? idx = a.select? idx := by
  simp only [select?, select, rows_toGeneral, cols_toGeneral, get_toGeneral]

theorem above_toGeneral : a.toGeneral.above b.toGeneral = a.above b := by
  simp only [above, rows_toGeneral, cols_toGeneral, get_toGeneral]

@[simp] theorem above?_toGeneral : a.toGeneral.above? b.toGeneral = a.above? b := by
  simp only [above?, cols_toGeneral, above_toGeneral]

@[simp] theorem mulVec_toGeneral (x : Vec α) : a.toGeneral.mulVec x = a.mulVec x := by
  simp only [mulVec, transform, rowDot, rows_toGeneral, cols_toGeneral, get_toGeneral]

@[simp] theorem mulVec?_toGeneral (x : Vec α) : a.toGeneral.mulVec? x = a.mulVec? x := by
  simp only [mulVec?, cols_toGeneral, mulVec_toGeneral]

/-- The two kernels compute the same from the two ways of storing a matrix. -/
theorem kernel_transform?_toGeneral (s t : α) (x y : Vec α) (transposed : Bool) :
    Kernel.transform? transposed a.toGeneral s x t y = Kernel.transform? transposed a s x t y := by
  simp only [kernel_transform?_eq, transform?, transform, transformTranspose?, transformTranspose,
    rowDot, columnDot, rows_toGeneral, cols_toGeneral, get_toGeneral]

end Mat

@[simp] theorem Cholesky.compute?_toGeneral (f : Cholesky α) (a : Mat α) :
    f.compute? a.toGeneral = f.compute? a := by
  simp only [compute?, compute, Mat.rows_toGeneral, Mat.cols_toGeneral, Mat.toGeneral_toGeneral]

@[simp] theorem kktSystem?_toGeneral (q a c b : Mat α) :
    kktSystem? q.toGeneral a c.toGeneral b = kktSystem? q a c b := by
  have hbeside : q.toGeneral.beside a.transpose = q.beside a.transpose := by
    simp only [Mat.beside, Mat.rows_toGeneral, Mat.cols_toGeneral, Mat.get_toGeneral]
  have habove : c.toGeneral.above b = c.above b := by
    simp only [Mat.above, Mat.rows_toGeneral, Mat.cols_toGeneral, Mat.get_toGeneral]
  simp only [kktSystem?, kktSystem, Mat.size_toGeneral, Mat.toGeneral_toGeneral, hbeside, habove]


end QuadProg
