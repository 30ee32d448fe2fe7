import QuadProg.ActiveSet.State
import QuadProg.Selection

/-!
# Changing the working set

After an iteration either one inequality joins the working set, the one that limited the step or
else the one that is violated most; or one leaves it, the one with the most negative multiplier; or
the point is optimal.
-/

namespace QuadProg

namespace ActiveSet

variable {α : Type} [Scalar α]

/-- An inequality with the bound `b` and the slack `slack` is out of tolerance. -/
def outOfTolerance (par : Params α) (b slack : α) : Bool := par.slack.differ b (b - slack)

/-- The inequality outside of the working set with the most negative slack. -/
def mostViolated? (par : Params α) (p : QuadraticProgram α) (s : State α) :
    Checked (Option Nat) := do
  let others := s.working.others
  let slacks ← p.slacks? others s.x
  let best := Selection.least 0
    (fun k => outOfTolerance par (p.bound (others.getD k 0)) (slacks.entry k))
    slacks.entry (List.range others.length)
  return best.choice.map fun k => others.getD k 0

/-- The inequality to join the working set. -/
def joining? (par : Params α) (p : QuadraticProgram α) (s : State α) : Checked (Option Nat) :=
  match s.blocking with
  | some i => do
    if ← s.working.contains? i then mostViolated? par p s else return some i
  | none => mostViolated? par p s

/-- The inequality to leave the working set: the member with the most negative multiplier. -/
def leaving (par : Params α) (p : QuadraticProgram α) (s : State α) : Option Nat :=
  let multiplier (i : Nat) : α := s.multipliers.entry (p.me + i)
  (Selection.least 0 (fun i => !par.solution.isZero (multiplier i)) multiplier
    s.working.members).choice

/-- The inequality to leave the working set, refused if a member has no multiplier. -/
def leaving? (par : Params α) (p : QuadraticProgram α) (s : State α) : Checked (Option Nat) :=
  guarded (s.CoversWorking p.me) .outOfRange (leaving par p s)

/-- The outcome of an exchange. -/
structure Exchange (α : Type) where
  /-- Another iteration is needed. -/
  goesOn : Bool
  /-- The state after the exchange. -/
  state : State α
  /-- What happened. -/
  trace : Trace α

/-- Ends the run at an optimum. -/
def finish (s : State α) (remarks : Trace α) : Exchange α :=
  let ⟨s, changes⟩ := s.moveTo .optimal
  ⟨false, s, remarks ++ changes⟩

/-- Goes on with another iteration. -/
def proceed (s : State α) (remarks : Trace α) : Exchange α :=
  let ⟨s, changes⟩ := s.moveTo .approximate
  ⟨true, s, remarks ++ changes⟩

/-- Changes the working set for the next iteration, or ends the run if nothing is to be changed. -/
def exchange? (par : Params α) (p : QuadraticProgram α) (s : State α) :
    Checked (Exchange α) :=
  if p.mi = 0 then .ok (finish s [])
  else do
    match ← joining? par p s with
    | some i =>
      let working ← s.working.insert? i
      return proceed { s with working } [.note (.exchange s.iterations (some i) none)]
    | none =>
      match ← leaving? par p s with
      | some e =>
        return proceed (s.drop p.me e) [.note (.exchange s.iterations none (some e))]
      | none => return finish s [.note (.exchange s.iterations none none)]

end ActiveSet

end QuadProg
