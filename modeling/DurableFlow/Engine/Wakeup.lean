import DurableFlow.Engine.Lifecycle

/-! Wakeup: one pass over the due contexts. A lost race is skipped, for its winner has settled
it; another failure is kept by id, and the pass goes on. -/
namespace DurableFlow.Engine

structure Pass where
  resumed : List Context
  failed : List (Option String)
  deriving DecidableEq

inductive Verdict where
  | skip | keep | escape
  deriving DecidableEq

/-- A lost race or a completed context is skipped; other failures of flows and stores are kept. -/
def verdict : Failure → Verdict
  | .stale .. | .completed .. | .notASubFlow _ => .skip
  | f => if f.isFlowFailure || f.isStorageFailure then .keep else .escape

def resumeAll : List Context → Pass → Run Pass
  | [], pass => return pass
  | c :: rest, pass => do
    match ← Action.attempt (Action.holding c resume) with
    | .ok (_, c) =>
      note .info ("Woke context " ++ plainText? c.id ++ " at node " ++ c.node.plain)
      resumeAll rest { pass with resumed := pass.resumed ++ [c] }
    | .error f =>
      match verdict f with
      | .skip =>
        note .warning ("Skipping wakeup of context " ++ plainText? c.id ++ ": " ++ f.message)
        resumeAll rest pass
      | .keep =>
        note .error ("Failed to wake context " ++ plainText? c.id ++ ": " ++ f.message)
        resumeAll rest { pass with failed := pass.failed ++ [c.id] }
      | .escape => throw f

/-- Resumes the contexts that are due at a time, by default the current one. -/
def tick (time : Option Moment) (limit : Json) : Run Pass := do
  let t ← match time with
    | some t => pure t
    | none => now
  let found ← due (some t) limit
  if found.isEmpty then return ⟨[], []⟩
  note .debug s!"Processing {found.length} due context(s)"
  resumeAll found ⟨[], []⟩

end DurableFlow.Engine
