import DurableFlow.Action
import DurableFlow.Context

/-! The store in memory: flows, revisions and contexts as they are, copied on the way in and
out. Times keep their microseconds and their zone. -/
namespace DurableFlow.Store

open DurableFlow.Flow (Definition Revision Publishing)

/-- A store in memory. Contexts stand in the order of their insertion. -/
structure Memory where
  flows : List (Int × Definition)
  revisions : List (Int × List Revision)
  contexts : List (String × Context)
  nextFlow : Int
  saves : Nat
  deriving DecidableEq

namespace Memory

def empty : Memory := ⟨[], [], [], 1, 0⟩

/-- Whether a stored flow other than the given one carries its UUID or shortcode. -/
def isTaken (m : Memory) (d : Definition) : Bool :=
  m.flows.any fun (_, f) => f.id ≠ d.id && (f.uuid = d.uuid || f.shortcode = d.shortcode)

/-- Saves identity and metadata; a flow without a number gets the next one. -/
def saveFlow (d : Definition) (m : Memory) : Except Failure (Definition × Memory) :=
  if m.isTaken d then .error (.storage (.identityTaken d.uuid d.shortcode))
  else
    let id := d.id.getD m.nextFlow
    let saved := { d with id := some id }
    .ok (saved, { m with
      nextFlow := max m.nextFlow (id + 1)
      flows := Table.put id { saved with revisions := [] } m.flows
      revisions := if (Table.find? id m.revisions).isSome then m.revisions
        else Table.put id [] m.revisions })

def revisionsOf (m : Memory) (flow : Int) : List Revision :=
  (Table.find? flow m.revisions).getD []

def saveRevision (now : Moment) (flow : Int) (document : Json) (status : Publishing) (m : Memory) :
    Except Failure (Revision × Memory) :=
  if (Table.find? flow m.flows).isNone then .error (.storage (.flowMissing flow))
  else
    let live : Revision := ⟨flow, 0, document, status, now, m.saves⟩
    let older := (m.revisionsOf flow).map fun r => { r with number := r.number + 1 }
    .ok (live, { m with
      revisions := Table.put flow (live :: older) m.revisions, saves := m.saves + 1 })

/-- A saved revision as it is now; one that the store dropped stays as it was. -/
def currentRevision (m : Memory) (r : Revision) : Revision :=
  ((m.revisionsOf r.flow).find? (·.serial = r.serial)).getD r

/-- Drops the live revision of a flow, leaving the other numbers alone. -/
def dropLive (flow : Int) (m : Memory) : Memory :=
  { m with revisions :=
      Table.put flow ((m.revisionsOf flow).filter fun r => !r.isLive) m.revisions }

def withRevisions (m : Memory) (d : Definition) : Definition :=
  { d with revisions := (d.id.map m.revisionsOf).getD [] }

def answersTo (key : FlowKey) (d : Definition) : Bool :=
  match key with
  | .id n => d.id = some n
  | .uuid s => d.uuid = some s
  | .shortcode s => d.shortcode = some s

def getFlow (key : FlowKey) (m : Memory) : Option Definition :=
  (m.flows.find? fun (_, d) => answersTo key d).map fun (_, d) => m.withRevisions d

def liveRevision (flow : Int) (m : Memory) : Option Revision :=
  (m.revisionsOf flow).find? (·.isLive)

/-- Every flow with a live revision and that revision's document, by number. -/
def activeFlows (only : Option Int) (m : Memory) : List (Definition × Json) :=
  ((m.flows.mergeSort fun a b => decide (a.1 ≤ b.1)).filter fun (id, _) =>
      only.all (· = id)).filterMap fun (id, d) =>
    (m.liveRevision id).map fun r => (m.withRevisions d, r.document)

/-- Refuses to file a context under its own id where another one stands. -/
def checkFree (m : Memory) (c : Context) : Except Failure Unit :=
  match c.id with
  | some id =>
    if (Table.find? id m.contexts).isSome then .error (.storage (.contextTaken id)) else .ok ()
  | none => .ok ()

/-- Files a context as new; one without an id gets the fresh one, whatever stands under it. The
held copy is stamped with version and times. -/
def insert (fresh : String) (now : Moment) : Action (Holding Memory Context) Unit := do
  let c ← Action.held
  Action.ofExcept ((← get).state.checkFree c)
  let filed := (c.named fresh).stamped now
  Action.alter fun _ => filed
  modify fun h => { h with state := { h.state with
    contexts := Table.put (c.id.getD fresh) filed.unbound h.state.contexts } }

/-- Changes a context, only at the expected version when one is given. Gives the new version. -/
def update (now : Moment) (id : Option String) (changes : List Context.Change)
    (expected : Option Int) (m : Memory) : Except Failure (Int × Memory) := do
  Context.checkFields changes
  match id.bind (Table.find? · m.contexts) with
  | none => throw (.contextNotFound id)
  | some c => do
    Context.checkVersion id expected c.version
    let next := { c.applyAll changes with version := c.version + 1, updated := now }
    return (next.version, { m with contexts := Table.put (id.getD "") next m.contexts })

def getContext (id : Option String) (m : Memory) : Option Context :=
  id.bind (Table.find? · m.contexts)

/-- The first elements up to a limit; a negative one counts from the end. -/
def limited {α : Type} (limit : Json) (items : List α) : Except Failure (List α) :=
  let upTo (n : Int) : List α :=
    if 0 ≤ n then items.take n.toNat else items.take (items.length - (-n).toNat)
  match limit with
  | .null => .ok items
  | .int n => .ok (upTo n)
  | .bool b => .ok (upTo (if b then 1 else 0))
  | _ => .error .notASliceBound

def wakesBefore (a b : Context) : Bool :=
  match a.wakeup, b.wakeup with
  | some t, some u => t.isBefore u
  | _, _ => false

def due (now : Option Moment) (limit : Json) (m : Memory) : Except Failure (List Context) := do
  let found ← m.contexts.filterMapM fun (_, c) => do
    return if ← c.isDue now then some c else none
  limited limit (found.mergeSort fun a b => !wakesBefore b a)

/-- Contexts by the time of their filing, the earlier filed first among equals. -/
def oldestFirst (cs : List Context) : List Context :=
  cs.mergeSort fun a b => decide (a.inserted.micros ≤ b.inserted.micros)

def children (parent : Option String) (m : Memory) : List Context :=
  oldestFirst ((m.contexts.map (·.2)).filter fun c => c.parent = parent)

def ofContact (contact : Json) (includeCompleted : Bool) (m : Memory) : List Context :=
  oldestFirst ((m.contexts.map (·.2)).filter fun c =>
    c.contact.same contact && (includeCompleted || !c.isCompleted))

def earlier (a b : Moment) : Except Failure Moment :=
  match b.before? a with
  | some true => .ok b
  | some false => .ok a
  | none => .error .zonesDiffer

def nextWakeup (m : Memory) : Except Failure (Option Moment) :=
  match m.contexts.filterMap fun (_, c) => if c.isSuspended then c.wakeup else none with
  | [] => .ok none
  | t :: rest => (rest.foldlM earlier t).map some

def shown (m : Memory) : String :=
  s!"InMemoryFlowStore(flows={m.flows.length}, contexts={m.contexts.length})"

end Memory
end DurableFlow.Store
