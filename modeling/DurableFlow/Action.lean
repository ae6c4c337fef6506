import DurableFlow.Failure

/-! Actions: steps that read and change a state and may fail. What a step did to the state
before it failed stays done. -/
namespace DurableFlow

abbrev Action (σ α : Type) := EStateM Failure σ α

/-- A state together with the caller's own copy of a record, which a step changes in place. -/
structure Holding (σ κ : Type) where
  state : σ
  held : κ

namespace Action

variable {σ τ κ α : Type}

def ofExcept (r : Except Failure α) : Action σ α := fun s =>
  match r with
  | .ok a => .ok a s
  | .error e => .error e s

def onPart (part : τ → σ) (put : σ → τ → τ) (act : Action σ α) : Action τ α := fun t =>
  match act (part t) with
  | .ok a s => .ok a (put s t)
  | .error e s => .error e (put s t)

def beside (act : Action σ α) : Action (Holding σ κ) α :=
  act.onPart Holding.state fun s h => { h with state := s }

/-- Runs a step on a record of its own. The record comes back only when the step succeeds. -/
def holding (record : κ) (act : Action (Holding σ κ) α) : Action σ (α × κ) := fun s =>
  match act ⟨s, record⟩ with
  | .ok a h => .ok (a, h.held) h.state
  | .error e h => .error e h.state

def held : Action (Holding σ κ) κ := fun h => .ok h.held h

def alter (f : κ → κ) : Action (Holding σ κ) Unit := fun h => .ok () { h with held := f h.held }

def attempt (act : Action σ α) : Action σ (Except Failure α) := fun s =>
  match act s with
  | .ok a s => .ok (.ok a) s
  | .error e s => .ok (.error e) s

end Action
end DurableFlow
