import QuadProg.Scalar.Float
import QuadProg.Trace.Report
import QuadProg.ActiveSet.Solve
import QuadProg.Memory.Program
import QuadProg.Proofs.Exact
import QuadProg.Proofs.Tolerance
import QuadProg.Proofs.Selection
import QuadProg.Proofs.WorkingSet
import QuadProg.Proofs.Tableau.Basis
import QuadProg.Proofs.Tableau.Represents
import QuadProg.Proofs.Tableau.Pivots
import QuadProg.Proofs.Tableau.Run
import QuadProg.Proofs.Tableau.Tolerance
import QuadProg.Proofs.StandardForm
import QuadProg.Proofs.LinearProgram
import QuadProg.Proofs.Factor.Triangular
import QuadProg.Proofs.QuadraticForm
import QuadProg.Proofs.Factor.Cholesky
import QuadProg.Proofs.Factor.LU
import QuadProg.Proofs.Factor.Rank
import QuadProg.Proofs.QuadraticProgram
import QuadProg.Proofs.ActiveSet.Subproblem
import QuadProg.Proofs.ActiveSet.Run
import QuadProg.Proofs.ActiveSet.Step
import QuadProg.Proofs.ActiveSet.Optimality
import QuadProg.Proofs.ActiveSet.Start
import QuadProg.Proofs.ActiveSet.Feasibility
import QuadProg.Proofs.ActiveSet.Semidefinite
import QuadProg.Proofs.ActiveSet.Initialise
import QuadProg.Proofs.ActiveSet.Drift
import QuadProg.Proofs.Verdicts
import QuadProg.Proofs.Tableau.Residue
import QuadProg.Proofs.Factor.Range
import QuadProg.Proofs.Tableau.Range
import QuadProg.Proofs.ActiveSet.Totality
import QuadProg.Proofs.Totality
import QuadProg.Mat.Kernel
import QuadProg.Proofs.Mat.Storage
import QuadProg.Proofs.Storage
import QuadProg.Proofs.ActiveSet.Independence
import QuadProg.Proofs.Trace
import QuadProg.Proofs.ActiveSet.Rounds
import QuadProg.Proofs.ActiveSet.Shape
import QuadProg.Proofs.Tableau.Course
import QuadProg.Proofs.Tableau.History
import QuadProg.Proofs.Tableau.Repeat
import QuadProg.Proofs.Tableau.Descent
import QuadProg.Proofs.ActiveSet.Routes
import QuadProg.Proofs.ActiveSet.Retries
import QuadProg.Proofs.Mat.Dense
import QuadProg.Proofs.Factor.Pivoting
import QuadProg.Proofs.Factor.Definite
import QuadProg.Proofs.Factor.RowSpace
import QuadProg.Proofs.ActiveSet.Unordered
import QuadProg.Proofs.Mat.Filling
import QuadProg.Proofs.WorkingSet.History
import QuadProg.Proofs.Mat.Blocks
import QuadProg.Factor.Buffer
import QuadProg.Proofs.Factor.Buffer
