import DurableFlow.Engine.Wakeup
import DurableFlow.Settings

/-! Workers: each turn wakes what is due and then waits, until the next stored wakeup time or for
the tick interval, whichever is shorter. -/
namespace DurableFlow

/-- A worker. The first numbers are as its owner gave them. It keeps the store that it started
over; `home` is how many stores its engine had replaced by then. -/
structure Worker where
  name : String
  tickInterval : Amount
  batchSize : Amount
  home : Nat
  resumed : Nat
  deriving DecidableEq

namespace Worker

def named (name : String) : Worker :=
  ⟨name, .double (Binary64.nearest false 1), .int 100, 0, 0⟩

def withTickInterval (interval : Amount) (w : Worker) : Except Failure Worker :=
  if interval.notPositive then .error (.intervalNotPositive interval.text)
  else .ok { w with tickInterval := interval }

def withBatchSize (size : Amount) (w : Worker) : Except Failure Worker :=
  if size.notPositive then .error (.batchNotPositive size.text)
  else .ok { w with batchSize := size }

def withSettings (s : Settings) (w : Worker) : Except Failure Worker := do
  (← w.withTickInterval s.tickInterval).withBatchSize (.int s.batchSize)

/-- One to five milliseconds, by the name, so that workers started together spread out. -/
def jitter (w : Worker) : Binary64 :=
  let sum : Nat := w.name.toList.foldl (fun sum c => sum + c.toNat) 0
  Binary64.ofRat (mkRat (1 + sum % 5) 1000)

def interval (w : Worker) : Except Failure Binary64 := do
  (← w.tickInterval.add (.double w.jitter)).toDouble

def remark (w : Worker) (level : Level) (text : String) : Run Unit :=
  Engine.note level ("Worker " ++ w.name ++ text)

/-- The worker over the store that is in use now, with the remark before its first turn. -/
def start (w : Worker) : Run Worker := do
  w.remark .info " started"
  return { w with home := (← get).replaced.length }

def stopped (w : Worker) : Run Unit :=
  w.remark .info s!" stopped after resuming {w.resumed} context(s)"

def stopping (w : Worker) : Run Unit := w.remark .info " shutting down..."

def closed : Run Unit := Engine.note .info "Worker handle closed"

abbrev Handler := Context → Run Unit

def notify (w : Worker) (handler : Handler) (c : Context) : Run Unit := do
  match ← Action.attempt (handler c) with
  | .ok () => return ()
  | .error f => w.remark .error (": wakeup handler failed for " ++ plainText? c.id ++ ": " ++ f.message)

def nextWakeup (w : Worker) : Run (Option Moment) := do
  match ← Action.attempt (Engine.atHome w.home (Engine.ask .nextWakeup Store.nextWakeup)) with
  | .ok t => return t
  | .error f =>
    w.remark .warning (": Failed to get next wakeup: " ++ f.message)
    return none

def later (a b : Binary64) : Binary64 :=
  if (Amount.double a).lt (.double b) then b else a

def sooner (a b : Binary64) : Binary64 :=
  if (Amount.double b).lt (.double a) then b else a

def wait (w : Worker) : Run Binary64 := do
  let longest ← Action.ofExcept w.interval
  match ← w.nextWakeup with
  | none => return longest
  | some t =>
    let now ← Engine.now
    if !t.zoned then throw .zonesApart
    let remaining := Binary64.ofRat (mkRat (t.micros - now.micros) 1000000)
    return sooner (later remaining (Binary64.zero false)) longest

/-- What a turn has done: the worker after it, the contexts handled, and how long to wait. -/
structure Turn where
  worker : Worker
  handled : List Context
  delay : Except Failure Binary64

/-- Wakes what is due and calls the handler on each context. Gives them, and whether rows kept
failing and whether the batch was full. -/
def wake (w : Worker) (handler : Handler) : Run (Worker × List Context × Bool × Bool) := do
  let pass ← Action.attempt (Engine.atHome w.home (Engine.tick none w.batchSize.toJson))
  match pass with
  | .ok pass =>
    let w := { w with resumed := w.resumed + pass.resumed.length }
    pass.resumed.forM (w.notify handler)
    let isFull := !(Amount.int pass.resumed.length).lt w.batchSize
    return (w, pass.resumed, !pass.failed.isEmpty, isFull)
  | .error f =>
    w.remark .error (" error: " ++ f.message)
    return (w, [], true, false)

/-- One turn. After failures the worker backs off for the whole interval, after a full batch it
does not wait. A failure to find the delay ends the worker. -/
def turn (w : Worker) (handler : Handler) : Run Turn := do
  let (w, handled, failing, isFull) ← w.wake handler
  let delay ← Action.attempt (
    if failing then Action.ofExcept w.interval
    else if isFull then pure (Binary64.zero false)
    else w.wait)
  return ⟨w, handled, delay⟩

def Turn.pass (t : Turn) : Run Binary64 := do
  let delay ← Action.ofExcept t.delay
  Engine.elapse delay
  return delay

end Worker
end DurableFlow
