import QuadProg.Mat.Block

/-!
# Triangular systems

Substitution solves a triangular system one unknown at a time. Forward substitution goes down the
unknowns and reads those already known from the front, backward substitution goes up and reads those
already known from the rear. In both, the known terms are subtracted from the right-hand side in
ascending order, and the difference is divided by the diagonal at the end.
-/

namespace QuadProg

namespace Triangular

variable {α : Type} [Scalar α]

/-- The first `n` unknowns of the lower triangular system with the entries `coef i k` for `k < i`.
The difference for the unknown at `i` is completed by `finish i`. -/
def forward (coef : Nat → Nat → α) (finish : Nat → α → α) (b : Vec α) : Nat → Vec α
  | 0 => #[]
  | i + 1 =>
    let known := forward coef finish b i
    known.push (finish i (Scalar.diffTo (b.entry i) (fun k => coef i k * known.entry k) i))

/-- The unknowns of the upper triangular system with the entries `coef i k` for `i < k`, where those
from `i` on are known. -/
def backward (coef : Nat → Nat → α) (finish : Nat → α → α) (b : Vec α) :
    Nat → List α → List α
  | 0, known => known
  | i + 1, known =>
    let s := Scalar.diffTo (b.entry i) (fun t => coef i (i + 1 + t) * known.getD t 0) known.length
    backward coef finish b i (finish i s :: known)

@[simp] theorem size_forward (coef : Nat → Nat → α) (finish : Nat → α → α) (b : Vec α) (n : Nat) :
    (forward coef finish b n).size = n := by
  induction n with
  | zero => rfl
  | succ n ih => simp [forward, ih]

@[simp] theorem length_backward (coef : Nat → Nat → α) (finish : Nat → α → α) (b : Vec α) (n : Nat)
    (known : List α) : (backward coef finish b n known).length = n + known.length := by
  induction n generalizing known with
  | zero => simp [backward]
  | succ n ih => simp [backward, ih]; omega

end Triangular

/-- The matrix whose columns are the images of the columns of `a`, which keep their length. -/
def Mat.mapColumns {α : Type} [Scalar α] (f : Vec α → Vec α) (a : Mat α) : Mat α :=
  if a.rows = 0 then a.toGeneral
  else
    let images := (Array.range a.cols).map fun c => f (a.column c)
    Mat.ofFn (.general a.rows a.cols) fun r c => Vec.entry (images.getD c #[]) r

theorem Mat.get_mapColumns {α : Type} [Scalar α] (f : Vec α → Vec α) (a : Mat α) {r c : Nat}
    (hr : r < a.rows) (hc : c < a.cols) : (a.mapColumns f).get r c = (f (a.column c)).entry r := by
  have hpos : a.rows ≠ 0 := by omega
  rw [mapColumns, if_neg hpos]
  refine (get_ofFn _ hr hc).trans ?_
  simp [Array.getD, hc]

theorem Mat.size_mapColumns {α : Type} [Scalar α] (f : Vec α → Vec α) (a : Mat α) :
    (a.mapColumns f).size = a.size := by
  unfold mapColumns
  split
  · exact Prod.ext (rows_toGeneral a) (cols_toGeneral a)
  · rfl

end QuadProg
