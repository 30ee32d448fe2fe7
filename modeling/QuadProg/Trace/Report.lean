import QuadProg.Mat.Text
import QuadProg.Trace

/-!
# Reports

A trace is reported as lines of text, each with a level. Events are reported at the two lowest
levels, remarks at the level of their importance.
-/

namespace QuadProg

/-- The importance of a line. -/
inductive Level where
  /-- The problem cannot be solved as given. -/
  | error
  /-- The run ended without an optimum. -/
  | warn
  /-- The stages of a run. -/
  | info
  /-- Decisions of a run. -/
  | debug
  /-- Every step of a run. -/
  | trace
deriving DecidableEq

/-- The name of a level. -/
def Level.label : Level → String
  | error => "ERROR"
  | warn => "WARN"
  | info => "INFO"
  | debug => "DEBUG"
  | trace => "TRACE"

namespace Report

/-- An index that may be missing, as text. -/
def optionalIndex : Option Nat → String
  | some i => "Some(" ++ toString i ++ ")"
  | none => "None"

/-- A basis as text. -/
def basis (b : Array Int) : String :=
  "[" ++ ", ".intercalate (b.toList.map toString) ++ "]"

variable {α : Type} [HasExactValue α]

/-- The lines of an event. -/
def event : Event α → List (Level × String)
  | .iteration count status => [(.trace, toString count ++ ": " ++ status.label)]
  | .pivot phase row col columns objective =>
    [(.trace, phase.name ++ ": pivot (" ++ toString row ++ ", " ++ toString col ++ ") objective " ++
        reportNumber objective),
      (.trace, phase.name ++ ": basis " ++ basis columns)]
  | .transition source target => [(.debug, source.label ++ " -> " ++ target.label)]

variable [Scalar α]

/-- The line of a remark. -/
def note : Note α → Level × String
  | .defect d => (.error, d.text)
  | .initializing => (.info, "----- Initializing")
  | .started => (.info, "----- Started")
  | .converged => (.info, "----- Converged")
  | .iterationLimit => (.warn, "----- ExcessIter")
  | .linearFailure status => (.warn, "----- " ++ status.label)
  | .quadraticFailure status => (.warn, "----- " ++ status.name)
  | .simplexStart rows cols =>
    (.debug, "simplex: " ++ toString rows ++ " constraints, " ++ toString cols ++ " variables")
  | .tableau grid => (.trace, "tableau: " ++ grid.text)
  | .secondPhase artificials =>
    (.debug, "Phase 2 with " ++ toString artificials ++ " artificial(s) in the basis")
  | .simplexEnd status pivots objective =>
    (.debug, "simplex: " ++ status.label ++ " after " ++ toString pivots ++ " pivots, objective " ++
      reportNumber objective)
  | .noStart status => (.debug, "feasibility LP: " ++ status.label)
  | .initialSet working => (.debug, "initial " ++ working.text)
  | .exchange iteration joining leaving =>
    (.trace, toString iteration ++ ": include " ++ optionalIndex joining ++ " exclude " ++
      optionalIndex leaving)
  | .unsolvable iteration => (.debug, toString iteration ++ ": KKT system unsolvable")
  | .retryLimit limit working =>
    (.warn, "Retry limit " ++ toString limit ++ " reached with " ++ working.text)
  | .step iteration length blocking =>
    (.trace, toString iteration ++ ": step " ++ reportNumber length ++ " to include " ++
      optionalIndex blocking)

end Report

/-- The lines of a trace. -/
def Trace.report {α : Type} [Scalar α] [HasExactValue α] (t : Trace α) :
    List (Level × String) :=
  t.flatMap fun
    | .event e => Report.event e
    | .note n => [Report.note n]

end QuadProg
