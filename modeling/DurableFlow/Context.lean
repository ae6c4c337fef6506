import DurableFlow.Flow.Graph

/-! Contexts: one run of a flow for one contact. The status is read off the two times and never
stored beside them. -/
namespace DurableFlow

/-- A context, as a store keeps it or a caller holds it. Only a caller's copy carries an index
of its flow's nodes. -/
structure Context where
  id : Option String
  contact : Json
  flow : Int
  flowUuid : Option String
  node : Json
  parent : Option String
  wakeup : Option Moment
  completed : Option Moment
  results : Json
  version : Int
  inserted : Moment
  updated : Moment
  index : Option Flow.NodeIndex
  deriving DecidableEq

namespace Context

inductive Status where
  | active | suspended | completed
  deriving DecidableEq, Repr

def Status.word : Status → String
  | .active => "ACTIVE"
  | .suspended => "SUSPENDED"
  | .completed => "COMPLETED"

def status (c : Context) : Status :=
  if c.completed.isSome then .completed
  else if c.wakeup.isSome then .suspended
  else .active

def isCompleted (c : Context) : Bool := c.completed.isSome

def isSuspended (c : Context) : Bool := c.status = .suspended

def hasCome (now : Option Moment) (wakeup : Moment) : Except Failure Bool :=
  match now with
  | none => .error .missingTime
  | some t =>
    match wakeup.notAfter? t with
    | some b => .ok b
    | none => .error .zonesDiffer

/-- Whether the context waits and its wakeup time has come. The time counts only for a context
that waits. -/
def isDue (now : Option Moment) (c : Context) : Except Failure Bool :=
  match c.isSuspended, c.wakeup with
  | true, some t => hasCome now t
  | _, _ => .ok false

def checkTime : Option Moment → Except Failure Unit
  | some t => t.dated.map fun _ => ()
  | none => .ok ()

/-- The context, refused when no calendar shows its wakeup time or its completion. -/
def dated (c : Context) : Except Failure Context := do
  checkTime c.wakeup
  checkTime c.completed
  return c

def unbound (c : Context) : Context := { c with index := none }

/-- The context under its own id, or under a fresh one when it has none. -/
def named (fresh : String) (c : Context) : Context := { c with id := some (c.id.getD fresh) }

/-- The context as it is filed: version one, with the time of the filing. -/
def stamped (now : Moment) (c : Context) : Context :=
  { c with version := 1, inserted := now, updated := now }

def shown (c : Context) : String :=
  "ExecutionContext(id=" ++ quotedText? c.id ++ ", contact_id=" ++ c.contact.shown ++
    s!", flow_id={c.flow}, node_uuid=" ++ c.node.shown ++ ", status=" ++ c.status.word ++
    ", parent_id=" ++ quotedText? c.parent ++ ")"

/-- A change of one field of a stored context. Only the first four fields can change. -/
inductive Change where
  | node (v : Json)
  | wakeup (t : Option Moment)
  | completed (t : Option Moment)
  | results (v : Json)
  | other (name : String)
  deriving DecidableEq

def apply (c : Context) : Change → Context
  | .node v => { c with node := v }
  | .wakeup t => { c with wakeup := t }
  | .completed t => { c with completed := t }
  | .results v => { c with results := v }
  | .other _ => c

def applyAll (changes : List Change) (c : Context) : Context := changes.foldl apply c

def unknownFields (changes : List Change) : List String :=
  changes.filterMap fun
    | .other name => some name
    | _ => none

def checkFields (changes : List Change) : Except Failure Unit :=
  if unknownFields changes = [] then .ok ()
  else .error (.storage (.unknownFields (unknownFields changes)))

def checkVersion (id : Option String) (expected : Option Int) (stored : Int) :
    Except Failure Unit :=
  if expected.any (· ≠ stored) then .error (.stale id expected stored) else .ok ()

end Context
end DurableFlow
