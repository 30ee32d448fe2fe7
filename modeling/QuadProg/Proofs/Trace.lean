import Mathlib
import QuadProg.Trace

/-!
# What observers can tell of a run

An observer is told the iterations, the pivots and the changes of status of a run, in the order in
which they happen. From the list of these events one can read off the numbers of the iterations, the
pivots with their phases, and whether the changes of status make a chain.
-/

namespace QuadProg

namespace Trace

variable {α : Type}

/-- The iterations that were announced: their numbers and the status told with them. -/
def iterations (events : List (Event α)) : List (ℕ × Status) :=
  events.filterMap fun
    | .iteration count status => some (count, status)
    | _ => none

/-- The pivots that were told: phase, row and column. -/
def pivots (events : List (Event α)) : List (Phase × ℕ × ℕ) :=
  events.filterMap fun
    | .pivot phase row col _ _ => some (phase, row, col)
    | _ => none

/-- The rows and columns of the pivots that were told. -/
def choices (events : List (Event α)) : List (ℕ × ℕ) := (pivots events).map Prod.snd

/-- The changes of status form a chain from the status `s` to the status `t`: each starts from the
status that the one before it led to, and none leads back to where it starts. An iteration is
announced with the status that the changes before it led to. -/
def Leads : Status → List (Event α) → Status → Prop
  | s, [], t => s = t
  | s, .iteration _ told :: rest, t => told = s ∧ Leads s rest t
  | s, .pivot _ _ _ _ _ :: rest, t => Leads s rest t
  | s, .transition source target :: rest, t => source = s ∧ source ≠ target ∧ Leads target rest t

/-! ## Reading lists of events -/

@[simp] theorem iterations_nil : iterations ([] : List (Event α)) = [] := rfl

@[simp] theorem iterations_iteration (count : ℕ) (status : Status) (rest : List (Event α)) :
    iterations (.iteration count status :: rest) = (count, status) :: iterations rest := rfl

@[simp] theorem iterations_pivot (phase : Phase) (row col : ℕ) (basis : Array ℤ) (objective : α)
    (rest : List (Event α)) :
    iterations (.pivot phase row col basis objective :: rest) = iterations rest := rfl

@[simp] theorem iterations_append (xs ys : List (Event α)) :
    iterations (xs ++ ys) = iterations xs ++ iterations ys := by simp [iterations]

@[simp] theorem pivots_nil : pivots ([] : List (Event α)) = [] := rfl

@[simp] theorem pivots_iteration (count : ℕ) (status : Status) (rest : List (Event α)) :
    pivots (.iteration count status :: rest) = pivots rest := rfl

@[simp] theorem pivots_pivot (phase : Phase) (row col : ℕ) (basis : Array ℤ) (objective : α)
    (rest : List (Event α)) :
    pivots (.pivot phase row col basis objective :: rest) = (phase, row, col) :: pivots rest := rfl

@[simp] theorem pivots_append (xs ys : List (Event α)) :
    pivots (xs ++ ys) = pivots xs ++ pivots ys := by simp [pivots]

/-! ## Changes of status -/

@[simp] theorem transition_self (s : Status) : (transition s s : Trace α) = [] := if_pos rfl

theorem events_transition (s t : Status) :
    (transition s t : Trace α).events = if s = t then [] else [.transition s t] := by
  unfold transition
  split <;> rfl

@[simp] theorem iterations_transition (s t : Status) :
    iterations (transition s t : Trace α).events = [] := by
  rw [events_transition]
  split <;> rfl

@[simp] theorem pivots_transition (s t : Status) :
    pivots (transition s t : Trace α).events = [] := by
  rw [events_transition]
  split <;> rfl

/-- A change of status tells no other change. -/
theorem mem_events_transition {s t : Status} {e : Event α}
    (h : e ∈ (transition s t : Trace α).events) : e = .transition s t := by
  rw [events_transition] at h
  split at h
  · cases h
  · exact List.mem_singleton.1 h

theorem eq_of_transition_mem {s t source target : Status}
    (h : .transition source target ∈ (transition s t : Trace α).events) :
    source = s ∧ target = t :=
  Event.transition.inj (mem_events_transition h)

theorem pivot_notMem_transition {s t : Status} {phase : Phase} {row col : ℕ} {basis : Array ℤ}
    {objective : α} :
    .pivot phase row col basis objective ∉ (transition s t : Trace α).events := by
  intro h
  cases mem_events_transition h

theorem leads_transition (s t : Status) : Leads s (transition s t : Trace α).events t := by
  rw [events_transition]
  split
  · next he => exact he
  · next hne => exact ⟨rfl, hne, rfl⟩

theorem Leads.append {s m t : Status} {xs ys : List (Event α)} (hx : Leads s xs m)
    (hy : Leads m ys t) : Leads s (xs ++ ys) t := by
  induction xs generalizing s with
  | nil =>
    obtain rfl : s = m := hx
    exact hy
  | cons e rest ih =>
    cases e with
    | iteration count told => exact ⟨hx.1, ih hx.2⟩
    | pivot phase row col basis objective => exact ih (s := s) hx
    | transition source target => exact ⟨hx.1, hx.2.1, ih hx.2.2⟩

end Trace

end QuadProg
