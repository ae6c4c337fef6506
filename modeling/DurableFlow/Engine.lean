import DurableFlow.Engine.Faults
import DurableFlow.Engine.Level
import DurableFlow.Registry
import DurableFlow.Retry
import DurableFlow.Store

/-! The engine: a store with a registry over it, and what surrounds them. The clock, the ids to
be drawn, the faults to come and the steps of others are part of the state, so that a run is a
function of it. -/
namespace DurableFlow

/-- An engine and its surroundings. `replaced` are the stores that were in use before, the oldest
first; `filed` are the ids of the contexts inserted so far; and `others` are steps of other clients
of the store: one of them runs before each store call. -/
structure Engine where
  store : Store
  replaced : List Store
  registry : Registry
  policy : RetryPolicy
  batchSize : Json
  clock : Int
  drawn : Nat
  compiled : Nat
  filed : List String
  faults : Faults
  others : List (Store → Store)
  journal : List (Level × String)
  pauses : List Int

abbrev Run (α : Type) := Action Engine α

abbrev OnCopy (α : Type) := Action (Holding Engine Context) α

namespace Engine

def ofStore (store : Store) (policy : RetryPolicy) (batchSize : Json) (clock : Int) : Engine :=
  ⟨store, [], .empty, policy, batchSize, clock, 0, 0, [], .none, [], [], []⟩

def note (level : Level) (text : String) : Run Unit :=
  modify fun e => { e with journal := e.journal ++ [(level, text)] }

def remarks (least : Level) (e : Engine) : List (Level × String) :=
  e.journal.filter fun (level, _) => least.rank ≤ level.rank

def instant : Run Moment := do Action.ofExcept (Moment.utc (← get).clock).dated

def now : Run Moment := return (← instant).cutToMillis

/-- Lets a number of seconds pass: the clock moves on to the nearest microsecond. -/
def elapse (seconds : Binary64) : Run Unit := do
  let micros ← Action.ofExcept (Amount.nearestInteger (seconds.mul (Binary64.ofRat 1000000)))
  modify fun e => { e with clock := e.clock + micros }

/-- Whether a count of milliseconds is exact in seconds, to the microsecond, in binary64. -/
def isExactPause (ms : Int) : Bool := ms.natAbs ≤ Nat.pow 2 40

/-- Waits some milliseconds. A wait that is too long to be exact is one of binary64 seconds. -/
def pause (ms : Int) : Run Unit := do
  if isExactPause ms then
    modify fun e => { e with clock := e.clock + ms * 1000, pauses := e.pauses ++ [ms] }
  else
    let seconds := (← Action.ofExcept (Amount.doubleOf ms)).div 1000
    elapse seconds
    let ms ← Action.ofExcept (Amount.nearestInteger (seconds.mul (Binary64.ofRat 1000)))
    modify fun e => { e with pauses := e.pauses ++ [ms] }

def freshId (n : Nat) : String :=
  let digits := toString n
  "00000000-0000-7000-8000-" ++ String.ofList (List.replicate (12 - digits.length) '0') ++ digits

/-- What comes before every store call: a step of another client, then a fault of the store. -/
def begin (op : Operation) : Run Unit := do
  let e ← get
  let e := match e.others with
    | [] => e
    | step :: rest => { e with store := step e.store, others := rest }
  match e.faults.failing op with
  | [] => set e
  | fails :: rest =>
    set { e with faults := e.faults.failNext op rest }
    if fails then throw (.storage .unavailable)

def ask {α : Type} (op : Operation) (f : Store → Except Failure α) : Run α := do
  begin op
  Action.ofExcept (f (← get).store)

def race (id : Option String) (expected : Option Int) : Run Unit := do
  let e ← get
  match expected, e.faults.lost with
  | some version, lose :: rest =>
    set { e with faults := { e.faults with lost := rest } }
    if lose then throw (.stale id expected (version + 1))
  | _, _ => return ()

/-- Writes to the store, past all faults but those of the store itself. -/
def write (id : Option String) (changes : List Context.Change) (expected : Option Int) :
    Run Int := do
  let time ← instant
  let e ← get
  let (version, store) ← Action.ofExcept (e.store.update time e.faults.script id changes expected)
  set { e with store }
  return version

def refuseBroken (id : Option String) : Run Unit := do
  match id with
  | some s => if s ∈ (← get).faults.broken then throw (.storage (.rejected s))
  | none => return ()

/-- Changes a stored context, only at the expected version when one is given. -/
def update (id : Option String) (changes : List Context.Change) (expected : Option Int) :
    Run Int := do
  begin .update
  race id expected
  refuseBroken id
  write id changes expected

def insert : OnCopy Unit := do
  Action.beside (begin .insert)
  let time ← Action.beside instant
  let h ← get
  let e := h.state
  let outcome := Store.insert (freshId (e.drawn + 1)) time ⟨e.store, h.held⟩
  let settle (g : Holding Store Context) : Holding Engine Context :=
    let drew := h.held.id.isNone && g.held.id.isSome
    ⟨{ e with store := g.state, drawn := if drew then e.drawn + 1 else e.drawn }, g.held⟩
  match outcome with
  | .ok () g =>
    set (settle g)
    Action.beside (modify fun e => { e with filed := e.filed ++ [g.held.id.getD ""] })
  | .error f g =>
    set (settle g)
    throw f

/-- Due contexts. Under a race another client writes to the first of them right after. -/
def due (now : Option Moment) (limit : Json) : Run (List Context) := do
  let found ← ask .due (Store.due now limit)
  if (← get).faults.racing then
    match found with
    | c :: _ => discard <| write c.id [.results (.object [("touched", .bool true)])] none
    | [] => pure ()
  return found

def saveFlow : Action (Holding Engine Flow.Definition) Unit := fun h =>
  match Store.saveFlow ⟨h.state.store, h.held⟩ with
  | .ok () g => .ok () ⟨{ h.state with store := g.state }, g.held⟩
  | .error f g => .error f ⟨{ h.state with store := g.state }, g.held⟩

def saveRevision (flow : Int) (document : Json) (status : Flow.Publishing) : Run Flow.Revision := do
  let time ← instant
  let e ← get
  let (r, store) ← Action.ofExcept
    (e.store.saveRevision time e.faults.trigger flow document status)
  set { e with store }
  return r

def alterStore (f : Store → Except Failure Store) : Run Unit := do
  let e ← get
  set { e with store := ← Action.ofExcept (f e.store) }

/-- Closes the store and starts again over a new one in the same place, with an empty registry.
Whoever still holds the old store finds it closed. -/
def reopen : Run Unit :=
  modify fun e => { e with
    store := e.store.reopen, replaced := e.replaced ++ [e.store.close], registry := .empty }

def backFrom (home : Nat) (store : Store) (e : Engine) : Engine :=
  { e with store, replaced := e.replaced.set home e.store }

/-- Runs a step over the store that was in use when `home` stores had been replaced. -/
def atHome {α : Type} (home : Nat) (act : Run α) : Run α := fun e =>
  match e.replaced[home]? with
  | none => act e
  | some old =>
    match act { e with store := old } with
    | .ok a f => .ok a (backFrom home e.store f)
    | .error f g => .error f (backFrom home e.store g)

end Engine
end DurableFlow
