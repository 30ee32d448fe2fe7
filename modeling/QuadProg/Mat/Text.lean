import QuadProg.Decimal.Scientific
import QuadProg.Mat.Basic

/-!
# Matrices as text

A matrix is shown as a heading with its storage scheme and size, then one line for each row.
-/

namespace QuadProg

/-- The name of a storage scheme. -/
def Shape.label : Shape → String
  | general _ _ => "General"
  | packed _ => "SymPack"

/-- The heading and the rows of a matrix, each on a line of its own. -/
def Mat.text {α : Type} [Scalar α] [HasExactValue α] (a : Mat α) : String :=
  let heading := s!"{a.shape.label} {a.rows} x {a.cols}\n"
  let line (r : Nat) : String :=
    "  " ++ String.join ((List.range a.cols).map fun c => reportCell (a.get r c)) ++ "\n"
  heading ++ String.join ((List.range a.rows).map line)

end QuadProg
