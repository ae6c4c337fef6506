import DurableFlow.Engine.Lifecycle

/-! Inputs: an event takes an exit of the current node. A lost race is tried again on a fresh
copy, as often as the retry policy allows. -/
namespace DurableFlow.Engine

/-- Refuses an input to a completed context, and an exit that the current node lacks. -/
def checkInput (c : Context) (choice : Json) : Except Failure Unit := do
  if c.isCompleted then throw (.completed .deliver c.id)
  match c.index with
  | none => return ()
  | some index =>
    match ← index.lookup? c.node with
    | none => return ()
    | some node => discard <| node.exitAt choice

def recordGiven (results : Json) : OnCopy Unit := do
  if results.isGiven then
    match results with
    | .object values => record values
    | v => throw (.notAMapping v)

def take (choice results : Json) : OnCopy Unit := do
  if (← Action.held).isSuspended then resume
  recordGiven results
  advance choice

/-- Tries an input once, on a fresh copy. A lost race comes back as a value. -/
def tryInput (id : Option String) (choice results : Json) : Run (Except Failure Context) := do
  let c ← load id
  Action.ofExcept (checkInput c choice)
  match ← Action.attempt (Action.holding c (take choice results)) with
  | .ok (_, c) => return .ok c
  | .error (.stale context expected actual) => return .error (.stale context expected actual)
  | .error f => throw f

def giveUp (id : Option String) (attempt : Int) (f : Failure) : Run Context := do
  note .warning ("Giving up on input for " ++ plainText? id ++ s!" after {attempt} attempt(s)")
  throw f

/-- Tries an input until it wins its race or the policy gives no more delay; the last argument
bounds the number of tries. -/
def deliverFrom (id : Option String) (choice results : Json) (attempt : Int) : Nat → Run Context
  | 0 => do
    match ← tryInput id choice results with
    | .ok c => return c
    | .error f => giveUp id attempt f
  | more + 1 => do
    match ← tryInput id choice results with
    | .ok c => return c
    | .error f =>
      match ← Action.ofExcept ((← get).policy.delayAfter attempt) with
      | none => giveUp id attempt f
      | some ms =>
        note .warning ("Retrying input for " ++ plainText? id ++ s!" (attempt {attempt}): " ++
          f.message)
        pause ms
        deliverFrom id choice results (attempt + 1) more

/-- Takes an exit of a context's current node, with results to record before. A race is lost only
to a fault or to another client, which bounds the tries of a policy that does not. -/
def deliver (id : Option String) (choice results : Json) : Run Context := do
  let e ← get
  let others := e.faults.lost.length + e.others.length
  deliverFrom id choice results 1 (e.policy.tries?.getD (others + 1))

def startFlow (identifier : Identifier) (contact : Json) : Run Context := do
  start (← fetch identifier).graph contact none

def suspendById (id : Option String) (wakeup : Option Moment) : Run Context := do
  return (← Action.holding (← load id) (suspend wakeup)).2

def enterById (id : Option String) (flow : Identifier) (wakeup : Option Moment) : Run Context := do
  return (← Action.holding (← load id) (enterSubFlow flow wakeup)).1

def exitById (id : Option String) : Run Context := do
  return (← Action.holding (← load id) exitSubFlow).1

def localizeIn (c : Context) (language key : Json) : Run Json := do
  let found ← fetch c.flow
  Action.ofExcept (found.graph.localization.localize language key)

end DurableFlow.Engine
