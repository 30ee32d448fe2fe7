import QuadProg.ActiveSet.Exchange
import QuadProg.ActiveSet.Step

/-!
# Solving quadratic programs

The whole method: the program is checked, a starting point is found, and iterations follow until the
point is optimal, the method gives up or the limit of iterations is reached.
-/

namespace QuadProg

namespace ActiveSet

variable {α : Type} [Scalar α]

/-- The first stage of a run, on a program that has passed its checks. -/
def start (par : Params α) (p : QuadraticProgram α) : Stage α :=
  (State.init p par.zeroThreshold).moveTo .valid

/-- Marks the program as valid, or returns its first defect. -/
def validate (par : Params α) (p : QuadraticProgram α) (s : State α) : Except Defect (Stage α) :=
  match p.check par.zeroThreshold with
  | .ok () => .ok (s.moveTo .valid)
  | .error d => .error d

/-- Iterates until the run ends or `fuel` iterations have been made. -/
def loop? (par : Params α) (p : QuadraticProgram α) : Nat → State α → Checked (Stage α)
  | 0, s => .ok ⟨s, [.note .iterationLimit]⟩
  | fuel + 1, s => do
    let opening : Record α := .event (.iteration s.iterations s.status)
    let ⟨s₁, moves⟩ ← iterate? par p s
    let s₂ := { s₁ with iterations := s₁.iterations + 1 }
    if s₂.status.isFailure then
      return ⟨s₂, opening :: moves⟩
    else
      let next ← exchange? par p s₂
      if next.goesOn then
        let ⟨s₃, rest⟩ ← loop? par p fuel next.state
        return ⟨s₃, opening :: moves ++ next.trace ++ rest⟩
      else
        return ⟨next.state, opening :: moves ++ next.trace⟩

/-- The iterations from a starting point, if one was found. -/
def iterations? (par : Params α) (p : QuadraticProgram α) (s : State α) : Checked (Stage α) :=
  if s.status.isFeasible then do
    let ⟨s, trace⟩ ← loop? par p (par.maxIter - s.iterations) s
    return ⟨s, .note .started :: trace⟩
  else .ok ⟨s, []⟩

/-- The remark at the end of a run. -/
def closing (status : Status) : Trace α :=
  if status.isOptimal then [.note .converged]
  else if status.isFailure then [.note (.quadraticFailure status)]
  else []

/-- The solution held by a state. -/
def solution? (p : QuadraticProgram α) (s : State α) : Checked (Solution α) := do
  let value ← p.objective? s.x
  return {
    status := s.status, x := s.x, multipliers := some s.multipliers, value,
    iterations := s.iterations }

/-- Solves a program that has passed its checks. -/
def solveValid? (par : Params α) (p : QuadraticProgram α) (offer : Option (Solution α)) :
    Checked (Outcome α) := do
  let ⟨s₀, opening⟩ := start par p
  let ⟨s₁, preparation⟩ ← initialise? par p offer s₀
  let ⟨s₂, progress⟩ ← iterations? par p s₁
  let solution ← solution? p s₂
  return {
    result := .ok solution
    trace := opening ++ .note .initializing :: preparation ++ progress ++ closing s₂.status }

end ActiveSet

namespace QuadraticProgram

variable {α : Type} [Scalar α]

/-- The remarks made when the program was built. -/
def remarks (p : QuadraticProgram α) : Trace α := p.defects.map fun d => .note (.defect d)

/-- The rejection of the program. Defects of a pair of constraints and bounds were remarked upon
when the program was built and are not remarked again. -/
def reject (p : QuadraticProgram α) (d : Defect) : Outcome α :=
  ⟨.error d, if p.defects.isEmpty then [.note (.defect d)] else []⟩

/-- Solves the program, starting from the offered solution if it serves. Refused if there is no room
for the state of the method, even if the program would be rejected. -/
def solve? (par : Params α) (p : QuadraticProgram α) (offer : Option (Solution α)) :
    Checked (Outcome α) := do
  require p.Fits .tooLarge
  match p.check par.zeroThreshold with
  | .error d => return p.reject d
  | .ok () => ActiveSet.solveValid? par p offer

end QuadraticProgram

end QuadProg
