import QuadProg.Proofs.Lossy
import QuadProg.Proofs.Mat.Storage
import QuadProg.Proofs.QuadraticProgram

/-!
# Products of rearranged matrices

Selecting rows, stacking and transposing move entries without computing anything, and the entries of
a product are sums over rows that go up in the index. So a product of a rearranged matrix is the
rearranged product, entry for entry and for scalars of which no law is known; only the transposed
product of two matrices needs factors that commute.

The kernel for a product of matrices works on one column of its array after the other.
-/

namespace QuadProg

/-! ## Stretches of an array -/

section Stretches

variable {α : Type} [Scalar α]

theorem Vec.entry_append (x y : Vec α) (i : ℕ) :
    Vec.entry (x ++ y) i = if i < x.size then x.entry i else y.entry (i - x.size) := by
  simp only [entry, Array.getD_eq_getD_getElem?, Array.getElem?_append]
  split <;> rfl

theorem Vec.entry_extract (x : Vec α) (start stop i : ℕ) :
    Vec.entry (x.extract start stop) i =
      if i < min stop x.size - start then x.entry (start + i) else 0 := by
  simp only [entry, Array.getD_eq_getD_getElem?, Array.getElem?_extract]
  split <;> rfl

namespace Kernel

omit [Scalar α] in
theorem size_overwrite {data piece : Array α} {start : ℕ} (h : start + piece.size ≤ data.size) :
    (overwrite data start piece).size = data.size := by
  simp only [overwrite, Array.size_append, Array.size_extract]
  omega

/-- The written stretch is read back, and the other cells stay. -/
theorem entry_overwrite {data piece : Array α} {start : ℕ} (h : start + piece.size ≤ data.size)
    (i : ℕ) :
    Vec.entry (overwrite data start piece) i =
      if start ≤ i ∧ i < start + piece.size then Vec.entry piece (i - start)
      else Vec.entry data i := by
  have hfront : (data.extract 0 start).size = start := by
    rw [Array.size_extract]
    omega
  rw [overwrite, Vec.entry_append, Vec.entry_append, Vec.entry_extract, Vec.entry_extract,
    Array.size_append, hfront]
  by_cases hbefore : i < start + piece.size
  · rw [if_pos hbefore]
    by_cases hfront : i < start
    · rw [if_pos hfront, if_pos (show i < min start data.size - 0 by omega), Nat.zero_add,
        if_neg fun hin => absurd hin.1 (not_le.2 hfront)]
    · rw [if_neg hfront, if_pos ⟨not_lt.1 hfront, hbefore⟩]
  · have hbehind : ¬ (start ≤ i ∧ i < start + piece.size) := fun hin => hbefore hin.2
    rw [if_neg hbefore, if_neg hbehind, min_self, Nat.add_sub_cancel' (not_lt.1 hbefore)]
    by_cases hi : i < data.size
    · rw [if_pos (by omega)]
    · rw [if_neg (by omega), Vec.entry, Array.getD, dif_neg hi]

omit [Scalar α] in
theorem size_stretch {data : Array α} {width k : ℕ} (h : (k + 1) * width ≤ data.size) :
    (stretch data width k).size = width := by
  rw [stretch, Array.size_extract, min_eq_left h, Nat.succ_mul]
  omega

theorem entry_stretch {data : Array α} {width k r : ℕ} (h : (k + 1) * width ≤ data.size)
    (hr : r < width) :
    Vec.entry (stretch data width k) r = Vec.entry data (k * width + r) := by
  rw [stretch, Vec.entry_extract, min_eq_left h, Nat.succ_mul, if_pos (by omega)]

/-- Each stretch is worked on as it was in the beginning, since the work on the others leaves it. -/
theorem pieces_spec {work : ℕ → Array α → Array α} {width : ℕ}
    (hwork : ∀ k (y : Array α), y.size = width → (work k y).size = width) {count : ℕ}
    {data : Array α} (h : count * width ≤ data.size) :
    (pieces work width count data).size = data.size ∧
      (∀ i, count * width ≤ i →
        Vec.entry (pieces work width count data) i = Vec.entry data i) ∧
      ∀ k < count, ∀ r < width,
        Vec.entry (pieces work width count data) (k * width + r) =
          Vec.entry (work k (stretch data width k)) r := by
  induction count with
  | zero => exact ⟨rfl, fun _ _ => rfl, fun _ hk => absurd hk (Nat.not_lt_zero _)⟩
  | succ n ih =>
    have hn : n * width + width ≤ data.size := by rwa [← Nat.succ_mul]
    obtain ⟨hsize, hbehind, hpieces⟩ := ih (by omega)
    have hnext : (n + 1) * width ≤ (pieces work width n data).size := by rwa [hsize]
    have hsame : stretch (pieces work width n data) width n = stretch data width n := by
      refine Vec.ext_entry ((size_stretch hnext).trans (size_stretch h).symm) fun r hr => ?_
      have hr : r < width := hr.trans_eq (size_stretch hnext)
      rw [entry_stretch hnext hr, entry_stretch h hr, hbehind _ (by omega)]
    have hpiece : (work n (stretch data width n)).size = width := hwork _ _ (size_stretch h)
    have hfits : n * width + (work n (stretch data width n)).size ≤
        (pieces work width n data).size := by
      rw [hpiece, hsize]
      exact hn
    have hstep : pieces work width (n + 1) data =
        overwrite (pieces work width n data) (n * width) (work n (stretch data width n)) := by
      rw [pieces, hsame]
    rw [hstep]
    refine ⟨(size_overwrite hfits).trans hsize, ?_, ?_⟩
    · intro i hi
      rw [Nat.succ_mul] at hi
      rw [entry_overwrite hfits, hpiece, if_neg (by omega), hbehind i (by omega)]
    · intro k hk r hr
      rw [entry_overwrite hfits, hpiece]
      rcases Nat.lt_succ_iff_lt_or_eq.1 hk with hlt | rfl
      · have : (k + 1) * width ≤ n * width := Nat.mul_le_mul_right width hlt
        rw [Nat.succ_mul] at this
        rw [if_neg (by omega), hpieces k hlt r hr]
      · rw [if_pos (by omega), Nat.add_sub_cancel_left]

/-- The worked stretches are the images of the stretches that were there. -/
theorem stretch_pieces {work : ℕ → Array α → Array α} {width : ℕ}
    (hwork : ∀ k (y : Array α), y.size = width → (work k y).size = width) {count : ℕ}
    {data : Array α} (h : count * width ≤ data.size) {k : ℕ} (hk : k < count) :
    stretch (pieces work width count data) width k = work k (stretch data width k) := by
  obtain ⟨hsize, -, hpieces⟩ := pieces_spec hwork h
  have hend : (k + 1) * width ≤ data.size := (Nat.mul_le_mul_right width hk).trans h
  have hend' : (k + 1) * width ≤ (pieces work width count data).size := by rwa [hsize]
  refine Vec.ext_entry ?_ fun r hr => ?_
  · rw [size_stretch hend', hwork k _ (size_stretch hend)]
  · have hr : r < width := hr.trans_eq (size_stretch hend')
    rw [entry_stretch hend' hr, hpieces k hk r hr]

end Kernel

end Stretches

/-- The entries at the listed places. -/
def Vec.select {α : Type} [Scalar α] (y : Vec α) (idx : List ℕ) : Vec α :=
  (idx.map y.entry).toArray

namespace Mat

variable {α : Type} [Scalar α]

/-- A column of a full matrix is a stretch of its storage. -/
theorem column_eq_stretch {a : Mat α} {rows cols : ℕ} (h : a.shape = .general rows cols) {c : ℕ}
    (hc : c < cols) : a.column c = Kernel.stretch a.data rows c := by
  have hsize : a.data.size = cols * rows := by
    rw [a.size_data, h, Shape.length, Nat.mul_comm]
  have hend : (c + 1) * rows ≤ a.data.size := by
    rw [hsize]
    exact Nat.mul_le_mul_right rows hc
  have hrows : a.rows = rows := by rw [Mat.rows, h]; rfl
  refine Vec.ext_entry ?_ fun r hr => ?_
  · rw [size_column, Kernel.size_stretch hend, hrows]
  · rw [size_column] at hr
    have hr' : r < rows := hr.trans_eq hrows
    rw [entry_column hr, Kernel.entry_stretch hend hr', get_eq_cell (by rw [h]; exact ⟨hr', hc⟩), h]
    rfl

/-! ## Products with vectors -/

section MulVec

variable {a b : Mat α} {x : Vec α}

/-- A product with a vector is settled by the sums over the rows. -/
theorem mulVec_eq {y : Vec α} (hsize : y.size = a.rows)
    (h : ∀ r < a.rows, y.entry r = 1 * a.rowDot r x + 0 * 0) : a.mulVec x = y := by
  refine Vec.ext_entry ((size_mulVec a x).trans hsize.symm) fun r hr => ?_
  have hr : r < a.rows := hr.trans_eq (size_mulVec a x)
  rw [entry_mulVec hr, h r hr]

theorem rowDot_select {idx : List ℕ} {k : ℕ} (hk : k < idx.length) :
    (a.select idx).rowDot k x = a.rowDot (idx.getD k 0) x :=
  Scalar.sumTo_congr fun c hc => by rw [get_select a idx hk hc]

theorem rowDot_above_upper {r : ℕ} (hr : r < a.rows) : (a.above b).rowDot r x = a.rowDot r x :=
  Scalar.sumTo_congr fun c hc => by rw [get_above_upper a b hr hc]

theorem rowDot_above_lower (h : a.cols = b.cols) {r : ℕ} (hr : r < b.rows) :
    (a.above b).rowDot (a.rows + r) x = b.rowDot r x := by
  have hcongr : (a.above b).rowDot (a.rows + r) x =
      Scalar.sumTo (fun c => b.get r c * x.entry c) a.cols :=
    Scalar.sumTo_congr fun c hc => by rw [get_above_lower a b hr hc]
  rw [hcongr, h]
  rfl

theorem mulVec_select {idx : List ℕ} (h : ∀ i ∈ idx, i < a.rows) :
    (a.select idx).mulVec x = Vec.select (a.mulVec x) idx := by
  refine mulVec_eq (by simp [Vec.select]; rfl) fun k hk => ?_
  have hk : k < idx.length := hk
  have hi : idx.getD k 0 < a.rows := by
    rw [List.getD_eq_getElem _ _ hk]
    exact h _ (List.getElem_mem hk)
  rw [Vec.select, Vec.entry_toArray, rowDot_select hk, ← entry_mulVec hi]
  simp [hk]

theorem mulVec_above (h : a.cols = b.cols) :
    (a.above b).mulVec x = a.mulVec x ++ b.mulVec x := by
  have hsize : (a.mulVec x ++ b.mulVec x).size = (a.above b).rows := by
    rw [Array.size_append, size_mulVec, size_mulVec]
    rfl
  refine mulVec_eq hsize fun r hr => ?_
  have hr : r < a.rows + b.rows := hr
  rw [Vec.entry_append, size_mulVec]
  by_cases hupper : r < a.rows
  · rw [if_pos hupper, entry_mulVec hupper, rowDot_above_upper hupper]
  · obtain ⟨k, rfl⟩ := Nat.exists_eq_add_of_le (not_lt.1 hupper)
    have hk : k < b.rows := by omega
    rw [if_neg hupper, Nat.add_sub_cancel_left, entry_mulVec hk, rowDot_above_lower h hk]

/-- The kernel multiplies by the rows. -/
theorem kernel_mulVec?_eq (a : Mat α) (x : Vec α) : Kernel.mulVec? a x = a.mulVec? x := by
  have hsizes : x.size = a.size.2 ∧ (Vec.zeros a.rows : Vec α).size = a.size.1 ↔ x.size = a.cols :=
    and_iff_left (Vec.size_zeros a.rows)
  exact guarded_congr hsizes fun h => transform_eq_kernel h.1 h.2

/-- The transposed product reads the columns where the product of the transposed matrix reads its
rows. -/
theorem kernel_transform?_transpose (a : Mat α) (s : α) (x : Vec α) (t : α) (y : Vec α) :
    Kernel.transform? true a s x t y = Kernel.transform? false a.transpose s x t y := by
  have hdot : ∀ c, a.columnDot c x = a.transpose.rowDot c x := by
    intro c
    exact Scalar.sumTo_congr fun r _ => by rw [get_transpose]
  rw [kernel_transform?_eq, kernel_transform?_eq]
  simp only [if_true, Bool.false_eq_true, if_false, transformTranspose?, transformTranspose,
    transform?, transform, hdot]
  rfl

end MulVec

/-! ## Products of matrices -/

section Mul

variable {a b : Mat α}

theorem transpose_transpose (a : Mat α) : a.transpose.transpose = a.toGeneral := by
  refine ext_get ?_ fun r c _ => ?_
  · rw [shape_toGeneral]
    rfl
  · rw [get_transpose, get_transpose, get_toGeneral]

/-- The entries of a column of the right operand are met in the order of the rows. -/
theorem rowDot_column (h : a.cols = b.rows) (r c : ℕ) :
    a.rowDot r (b.column c) = Scalar.sumTo (fun k => a.get r k * b.get k c) a.cols :=
  Scalar.sumTo_congr fun k hk => by rw [entry_column (hk.trans_eq h)]

theorem column_mul (h : a.cols = b.rows) {c : ℕ} (hc : c < b.cols) :
    (a.mul b).column c = a.mulVec (b.column c) := by
  have hsize : ((a.mul b).column c).size = a.rows := size_column _ c
  refine (mulVec_eq hsize fun r hr => ?_).symm
  rw [entry_column (show r < (a.mul b).rows from hr), get_mul hr hc, rowDot_column h]

theorem transpose_mul (h : a.cols = b.rows) (hcomm : ∀ u v : α, u * v = v * u) :
    (a.mul b).transpose = b.transpose.mul a.transpose := by
  refine ext_get rfl fun r c hrc => ?_
  have hr : r < b.cols := hrc.1
  have hc : c < a.rows := hrc.2
  have hsum : Scalar.sumTo (fun k => b.transpose.get r k * a.transpose.get k c) b.transpose.cols =
      Scalar.sumTo (fun k => a.get c k * b.get k r) a.cols := by
    rw [h]
    exact Scalar.sumTo_congr fun k _ => by rw [get_transpose, get_transpose, hcomm]
  rw [get_transpose, get_mul hc hr, get_mul (show r < b.transpose.rows from hr)
    (show c < a.transpose.cols from hc), hsum]

theorem size_kernel_transform (transposed : Bool) (a : Mat α) (s : α) (x : Vec α) (t : α)
    (y : Vec α) : (Kernel.transform transposed a s x t y).size = y.size := by
  unfold Kernel.transform
  split <;> exact Array.size_mapIdx

/-- The kernel multiplies by a column of the right operand, written over zeros. -/
theorem kernel_transform_column (h : a.cols = b.rows) {c : ℕ} (hc : c < b.cols) :
    Kernel.transform false a 1 (Kernel.stretch b.toGeneral.data b.toGeneral.rows c) 0
      (Vec.zeros a.rows) = a.mulVec (b.column c) := by
  have hcolumn : Kernel.stretch b.toGeneral.data b.toGeneral.rows c = b.column c := by
    rw [rows_toGeneral, ← column_eq_stretch b.shape_toGeneral hc, column_toGeneral]
  have hx : (b.column c).size = a.cols := by rw [size_column, h]
  rw [hcolumn]
  exact transform_eq_kernel hx (Vec.size_zeros a.rows)

theorem stretch_zeros (m : ℕ) {n c : ℕ} (hc : c < n) :
    Kernel.stretch (zeros (.general m n) : Mat α).data m c = Vec.zeros m := by
  have hend : (c + 1) * m ≤ (zeros (.general m n) : Mat α).data.size := by
    rw [size_data, Nat.mul_comm]
    exact Nat.mul_le_mul_left m hc
  refine Vec.ext_entry (by rw [Kernel.size_stretch hend, Vec.size_zeros]) fun r hr => ?_
  rw [Kernel.entry_stretch hend (hr.trans_eq (Kernel.size_stretch hend)), Vec.entry_zeros]
  exact Vec.entry_zeros _ _

/-- The kernel computes the product in one array, column by column. -/
theorem kernel_mul?_eq (a b : Mat α) : Kernel.mul? a b = a.mul? b := by
  by_cases hfit : a.cols = b.rows
  · let zeros : Mat α := Mat.zeros (.general a.rows b.cols)
    let work (c : ℕ) (y : Vec α) : Vec α :=
      Kernel.transform false a 1 (Kernel.stretch b.toGeneral.data b.toGeneral.rows c) 0 y
    let filled : Array α :=
      if 0 < a.rows then Kernel.pieces work a.rows b.cols zeros.data else zeros.data
    have hwork : ∀ c (y : Vec α), y.size = a.rows → (work c y).size = a.rows := fun c y hy =>
      (size_kernel_transform _ _ _ _ _ y).trans hy
    have hfits : b.cols * a.rows ≤ zeros.data.size := by
      rw [size_data, Nat.mul_comm]
      exact le_rfl
    have hsize : filled.size = (Shape.general a.rows b.cols).length := by
      simp only [filled]
      split
      · exact (Kernel.pieces_spec hwork hfits).1.trans zeros.size_data
      · exact zeros.size_data
    have hproduct : (⟨.general a.rows b.cols, filled, hsize⟩ : Mat α) = a.mul b := by
      refine ext_column rfl rfl fun c hc => ?_
      rw [column_eq_stretch rfl hc, column_mul hfit hc]
      rcases Nat.eq_zero_or_pos a.rows with hrows | hrows
      · -- Without rows there is nothing in a column.
        have hend : (c + 1) * a.rows ≤ filled.size := by simp [hrows]
        exact (Array.eq_empty_of_size_eq_zero ((Kernel.size_stretch hend).trans hrows)).trans
          (Array.eq_empty_of_size_eq_zero ((size_mulVec ..).trans hrows)).symm
      · calc Kernel.stretch filled a.rows c
            = Kernel.stretch (Kernel.pieces work a.rows b.cols zeros.data) a.rows c := by
              rw [show filled = _ from if_pos hrows]
          _ = work c (Vec.zeros a.rows) := by
              rw [Kernel.stretch_pieces hwork hfits hc, stretch_zeros a.rows hc]
          _ = a.mulVec (b.column c) := kernel_transform_column hfit hc
    have hkernel : Kernel.mul? a b = ofArray? (.general a.rows b.cols) filled := by
      rw [Kernel.mul?, require_eq_ok hfit]
      rfl
    rw [hkernel, mul?, guarded_eq_ok hfit, ← hproduct]
    exact dif_pos hsize
  · simp [Kernel.mul?, mul?, require, guarded, hfit, bind, Except.bind]

end Mul

end Mat

/-! ## Constraints -/

/-- The slacks are the distances of the left-hand sides of all inequalities from their bounds. -/
theorem QuadraticProgram.slacks?_eq {α : Type} [Scalar α] {p : QuadraticProgram α} {idx : List ℕ}
    {x : Vec α} (h : ∀ i ∈ idx, i < p.mi) (hbounds : p.HasBounds idx) (hx : x.size = p.ai.cols) :
    p.slacks? idx x = .ok (idx.map fun i => p.bound i - (p.ai.mulVec x).entry i).toArray := by
  have hbodies : p.bodies? idx x = .ok (Vec.select (p.ai.mulVec x) idx) := by
    have hrows : p.ai.cols = 0 ∨ ∀ i ∈ idx, i < p.ai.rows := Or.inr h
    rw [← Mat.mulVec_select h, bodies?, Mat.select?, guarded_eq_ok hrows]
    exact guarded_eq_ok hx
  have hvalues : (Vec.select (p.ai.mulVec x) idx).mapIdx
      (fun k v => p.bound (idx.getD k 0) - v) =
        (idx.map fun i => p.bound i - (p.ai.mulVec x).entry i).toArray := by
    refine Array.ext (by simp [Vec.select]) fun k hk hk' => ?_
    have hk : k < idx.length := by simpa using hk'
    simp [Vec.select, hk]
  rw [slacks?, hbodies, ← hvalues]
  exact guarded_eq_ok hbounds

namespace Mat

/-- Products of rearranged matrices, for any scalars. A product with listed rows has the listed
entries of the whole product, and so the slacks of any list of inequalities are read off the
left-hand sides that the test of a point looks at. A product with stacked matrices is one product
after the other. The transposed product is the product with the transposed matrix, whatever is added
to it, and transposition is its own inverse up to full storage. The columns of a product of matrices
are products with the columns, and if factors commute, its transpose is the product of the
transposed matrices the other way round. The kernels compute these products. -/
theorem products_of_blocks (α : Type) [Scalar α] :
    (∀ (a : Mat α) (idx : List ℕ) (x : Vec α), (∀ i ∈ idx, i < a.rows) → x.size = a.cols →
      ∃ rows y, a.select? idx = .ok rows ∧ a.mulVec? x = .ok y ∧
        rows.mulVec? x = .ok (Vec.select y idx)) ∧
    (∀ (p : QuadraticProgram α) (idx : List ℕ) (x : Vec α), (∀ i ∈ idx, i < p.mi) →
      p.HasBounds idx → x.size = p.ai.cols →
      ∃ bodies, p.ai.mulVec? x = .ok bodies ∧
        p.slacks? idx x = .ok (idx.map fun i => p.bound i - bodies.entry i).toArray ∧
        ∀ same, p.isFeasible? x same = .ok true →
          ∀ i ∈ idx, bodies.entry i ≤ p.bound i ∨ same (p.bound i) (bodies.entry i) = true) ∧
    (∀ (a b : Mat α) (x : Vec α), a.cols = b.cols → x.size = a.cols →
      ∃ stacked y z, a.above? b = .ok stacked ∧ a.mulVec? x = .ok y ∧ b.mulVec? x = .ok z ∧
        stacked.mulVec? x = .ok (y ++ z)) ∧
    (∀ (a : Mat α) (s : α) (x : Vec α) (t : α) (y : Vec α),
      Kernel.transform? true a s x t y = Kernel.transform? false a.transpose s x t y) ∧
    (∀ a : Mat α, a.transpose.transpose = a.toGeneral) ∧
    (∀ a b : Mat α, a.cols = b.rows →
      ∃ product, a.mul? b = .ok product ∧ product.shape = .general a.rows b.cols ∧
        (∀ c < b.cols, ∃ v y, b.toGeneral.column? c = .ok v ∧ a.mulVec? v = .ok y ∧
          product.column? c = .ok y) ∧
        ((∀ u v : α, u * v = v * u) →
          b.transpose.mul? a.transpose = .ok product.transpose)) ∧
    ∀ (a b : Mat α) (x : Vec α),
      Kernel.mulVec? a x = a.mulVec? x ∧ Kernel.mul? a b = a.mul? b := by
  refine ⟨?_, ?_, ?_, kernel_transform?_transpose, transpose_transpose, ?_, fun a b x =>
    ⟨kernel_mulVec?_eq a x, kernel_mul?_eq a b⟩⟩
  · intro a idx x hidx hx
    refine ⟨a.select idx, a.mulVec x, guarded_eq_ok (Or.inr hidx), guarded_eq_ok hx, ?_⟩
    rw [mulVec?, guarded_eq_ok (show x.size = (a.select idx).cols from hx), mulVec_select hidx]
  · intro p idx x hidx hbounds hx
    refine ⟨p.ai.mulVec x, guarded_eq_ok hx, QuadraticProgram.slacks?_eq hidx hbounds hx, ?_⟩
    intro same hfeasible i hi
    exact ((QuadraticProgram.isFeasible?_eq_ok hfeasible).1 rfl).2 i (hidx i hi)
  · intro a b x hcols hx
    refine ⟨a.above b, a.mulVec x, b.mulVec x, guarded_eq_ok hcols, guarded_eq_ok hx,
      guarded_eq_ok (hx.trans hcols), ?_⟩
    rw [mulVec?, guarded_eq_ok (show x.size = (a.above b).cols from hx), mulVec_above hcols]
  · intro a b hfit
    refine ⟨a.mul b, guarded_eq_ok hfit, rfl, fun c hc => ?_, fun hcomm => ?_⟩
    · have hsize : (b.column c).size = a.cols := (size_column b c).trans hfit.symm
      refine ⟨b.column c, a.mulVec (b.column c), b.column?_toGeneral hc, guarded_eq_ok hsize, ?_⟩
      rw [← column_mul hfit hc, column?,
        require_eq_ok (show (a.mul b).shape.isPacked = false from rfl)]
      exact guarded_eq_ok hc
    · rw [mul?, guarded_eq_ok (show b.transpose.cols = a.transpose.rows from hfit.symm),
        transpose_mul hfit hcomm]

/-! ## A sample -/

/-- A packed matrix with an entry that is no number. -/
def hollow : Mat Lossy := ⟨.packed 2, #[.num 2, .nan, .num 3], rfl⟩

/-- A row with an entry that is no number. -/
def brokenRow : Mat Lossy := ⟨.general 1 2, #[.nan, .num 1], rfl⟩

/-- A program whose inequalities have the packed matrix. -/
def hollowProgram : QuadraticProgram Lossy where
  q := hollow
  c := Lossy.column (.num 0) (.num 0)
  ae := Mat.zeros (.general 0 2)
  be := Mat.zeros (.general 0 1)
  ai := hollow
  bi := Lossy.column (.num 1) .nan
  defects := []

theorem products_of_blocks_hollow :
    let x : Vec Lossy := #[.num 1, .num 0]
    (∃ rows y, hollow.select? [1, 0, 1] = .ok rows ∧ hollow.mulVec? x = .ok y ∧
      rows.mulVec? x = .ok (Vec.select y [1, 0, 1])) ∧
    (∃ bodies, hollowProgram.ai.mulVec? x = .ok bodies ∧
      hollowProgram.slacks? [1, 0] x =
        .ok ([1, 0].map fun i => hollowProgram.bound i - bodies.entry i).toArray) ∧
    (∃ stacked y z, hollow.above? brokenRow = .ok stacked ∧ hollow.mulVec? x = .ok y ∧
      brokenRow.mulVec? x = .ok z ∧ stacked.mulVec? x = .ok (y ++ z)) ∧
    ∃ product v y, brokenRow.mul? hollow = .ok product ∧
      hollow.toGeneral.column? 1 = .ok v ∧ brokenRow.mulVec? v = .ok y ∧
      product.column? 1 = .ok y ∧
      hollow.transpose.mul? brokenRow.transpose = .ok product.transpose := by
  intro x
  obtain ⟨hselect, hslacks, habove, -, -, hmul, -⟩ := products_of_blocks Lossy
  obtain ⟨bodies, hbodies, hvalues, -⟩ := hslacks hollowProgram [1, 0] x (by decide) (by decide) rfl
  obtain ⟨product, hproduct, -, hcolumns, hcomm⟩ := hmul brokenRow hollow rfl
  obtain ⟨v, y, hv, hy, hcolumn⟩ := hcolumns 1 (by decide)
  exact ⟨hselect hollow [1, 0, 1] x (by decide) rfl, ⟨bodies, hbodies, hvalues⟩,
    habove hollow brokenRow x rfl rfl, product, v, y, hproduct, hv, hy, hcolumn,
    hcomm Lossy.mul_comm⟩

end Mat

end QuadProg
