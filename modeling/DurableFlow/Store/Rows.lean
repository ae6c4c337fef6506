import DurableFlow.Action
import DurableFlow.Binary64.Column
import DurableFlow.Store.Row

/-! The store in tables: constraints on columns, signed 64-bit integers, and ids that are never
given twice. It works only while it is connected. -/
namespace DurableFlow.Store

open DurableFlow.Flow (Definition Revision Publishing)

structure RevisionRow where
  flow : Int
  number : Int
  snapshot : Snapshot
  deriving DecidableEq

/-- A store in tables. Without a place it lives no longer than its connection. `sequence` is the
highest flow number given so far; contexts stand in the order of their insertion. -/
structure Rows where
  place : Option String
  connected : Bool
  sequence : Int
  flows : List FlowRow
  revisions : List RevisionRow
  contexts : List ContextRow
  deriving DecidableEq

namespace Rows

def empty (place : Option String) : Rows := ⟨place, false, 0, [], [], []⟩

def connect (r : Rows) : Rows := { r with connected := true }

def close (r : Rows) : Rows :=
  if r.connected && r.place.isNone then empty none else { r with connected := false }

def shown (r : Rows) : String := "SqliteFlowStore(" ++ r.place.getD "in-memory" ++ ")"

def checkConnected (r : Rows) : Except Failure Unit :=
  if r.connected then .ok () else .error (.storage .notConnected)

def largest : Int := Nat.pow 2 63 - 1

def checkSize (n : Int) : Except Failure Unit :=
  if -largest - 1 ≤ n ∧ n ≤ largest then .ok () else .error (.tooLarge .column)

def cell : Json → Except Failure Json
  | .array _ | .object _ => .error .unsupportedValue
  | .bool b => .ok (.int (if b then 1 else 0))
  | .int n => (checkSize n).map fun _ => .int n
  | v => .ok v

/-- A binary64 number in an integer column: a whole one becomes an integer, if it lies strictly
between the smallest and the largest integer of a column. -/
def wholeCell (d : Binary64) : Json :=
  match d.value? with
  | some q =>
    if q.den = 1 ∧ -largest - 1 < q.num ∧ q.num < largest then .int q.num else .double d
  | none => .double d

def numeralCell? (s : String) : Option Json :=
  let (negative, cs) := Text.splitSign (Text.trimBy Text.isAsciiBlank s.toList)
  (Text.decimalParts cs).map fun (whole, fraction, e) =>
    let size : Int := Text.digitsValue 10 whole
    let n := if negative then -size else size
    if cs.all Char.isDigit ∧ (checkSize n).isOk then .int n
    else wholeCell (Binary64.Column.ofDigits negative whole fraction e)

/-- A value in an integer column: whole numbers become integers, and so do texts that spell
them. -/
def integerCell : Json → Json
  | .string s => (numeralCell? s).getD (.string s)
  | .double d => wholeCell d
  | v => v

def textCell : Json → String
  | .string s => s
  | .int n => toString n
  | .bool b => if b then "1" else "0"
  | .double d => Binary64.Column.text d
  | _ => ""

def require (column : String) (v : Option String) : Except RowFault String :=
  match v with
  | some s => .ok s
  | none => .error (.missing column)

def flowRow (id : Int) (d : Definition) : Except RowFault FlowRow := do
  let uuid ← require "flows.uuid" d.uuid
  let shortcode ← require "flows.shortcode" d.shortcode
  let name ← require "flows.name" d.name
  let language ← require "flows.language" d.language
  let format ← require "flows.version_number" d.format
  return ⟨id, uuid, shortcode, name, language, d.kind, format⟩

def checkUnique (row : FlowRow) (flows : List FlowRow) : Except RowFault Unit :=
  if flows.any fun f => f.id ≠ row.id && f.shortcode = row.shortcode then
    .error (.taken "flows.shortcode")
  else if flows.any fun f => f.id ≠ row.id && f.uuid = row.uuid then .error (.taken "flows.uuid")
  else .ok ()

def putFlow (row : FlowRow) : List FlowRow → List FlowRow
  | [] => [row]
  | f :: rest => if f.id = row.id then row :: rest else f :: putFlow row rest

def nextNumber (r : Rows) : Except Failure Int :=
  if r.sequence ≥ largest then .error .idsExhausted else .ok (r.sequence + 1)

/-- Saves identity and metadata; a flow without a number gets the next one. -/
def saveFlow (d : Definition) (r : Rows) : Except Failure (Definition × Rows) := do
  r.checkConnected
  let id ← match d.id with
    | some id => (checkSize id).map fun _ => id
    | none => r.nextNumber
  match flowRow id d with
  | .error fault => throw (.storage (.flowRow d.uuid fault))
  | .ok row =>
    match checkUnique row r.flows with
    | .error fault => throw (.storage (.flowRow d.uuid fault))
    | .ok () =>
      return ({ d with id := some id },
        { r with sequence := max r.sequence id, flows := putFlow row r.flows })

/-- Saves a revision as the live one; the others move up by one. A trigger, while there is one,
refuses every new revision with its text. -/
def saveRevision (now : Moment) (trigger : Option String) (flow : Int) (document : Json)
    (status : Publishing) (r : Rows) : Except Failure (Revision × Rows) := do
  r.checkConnected
  checkSize flow
  if !r.flows.any (·.id = flow) then throw (.storage (.flowMissing flow))
  match trigger with
  | some text => throw (.storage (.revision flow text))
  | none =>
    let older := r.revisions.map fun x => if x.flow = flow then { x with number := x.number + 1 } else x
    let live : RevisionRow := ⟨flow, 0, ⟨document, status, now.millis⟩⟩
    return (⟨flow, 0, document, status, now, 0⟩, { r with revisions := older ++ [live] })

/-- Drops the live revision of a flow, leaving the other numbers alone. -/
def dropLive (flow : Int) (r : Rows) : Rows :=
  { r with revisions := r.revisions.filter fun x => !(x.flow = flow && x.number = 0) }

def revisionsOf (r : Rows) (flow : Int) : List Revision :=
  ((r.revisions.filter (·.flow = flow)).mergeSort fun a b => decide (a.number ≤ b.number)).map
    fun x => x.snapshot.revision x.flow x.number

def answersTo (key : FlowKey) (f : FlowRow) : Bool :=
  match key with
  | .id n => f.id = n
  | .uuid s => f.uuid = s
  | .shortcode s => f.shortcode = s

def getFlow (identifier : Identifier) (r : Rows) : Except Failure (Option Definition) := do
  r.checkConnected
  let key ← identifier.key
  match key with
  | .id n => checkSize n
  | _ => pure ()
  return (r.flows.find? (answersTo key)).map fun f =>
    { f.definition with revisions := r.revisionsOf f.id }

def liveRevision (flow : Int) (r : Rows) : Except Failure (Option Revision) := do
  r.checkConnected
  checkSize flow
  return (r.revisions.find? fun x => x.flow = flow && x.number = 0).map fun x =>
    x.snapshot.revision x.flow x.number

/-- Every flow with a live revision and that revision's document, by number. -/
def activeFlows (only : Option Int) (r : Rows) : Except Failure (List (Definition × Json)) := do
  r.checkConnected
  match only with
  | some n => checkSize n
  | none => pure ()
  let chosen := r.flows.filter fun f => only.all (· = f.id)
  return (chosen.mergeSort fun a b => decide (a.id ≤ b.id)).filterMap fun f =>
    (r.revisions.find? fun x => x.flow = f.id && x.number = 0).map fun x =>
      (f.definition, x.snapshot.document)

/-- The failure of a context's row without a value that a column requires. -/
def missingIn (id column : String) : Failure :=
  .storage (.contextRow id (.missing ("flow_contexts." ++ column)))

def checkPresent (id column : String) (v : Json) : Except Failure Unit :=
  if v = .null then .error (missingIn id column) else .ok ()

def presentText (id column : String) (v : Option String) : Except Failure String :=
  match v with
  | some s => .ok s
  | none => .error (missingIn id column)

def contextRow (c : Context) : Except Failure ContextRow := do
  let id := c.id.getD ""
  let contact ← cell c.contact
  checkSize c.flow
  let node ← cell c.node
  checkPresent id "contact_id" contact
  let flowUuid ← presentText id "flow_uuid" c.flowUuid
  checkPresent id "node_uuid" node
  return {
    id
    contact := integerCell contact
    flow := c.flow
    flowUuid
    node := textCell node
    parent := c.parent
    wakeup := c.wakeup.map Moment.millis
    completed := c.completed.map Moment.millis
    results := c.results
    version := c.version
    inserted := c.inserted.millis
    updated := c.updated.millis }

def checkFree (r : Rows) (row : ContextRow) : Except Failure Unit :=
  if r.contexts.any (·.id = row.id) then
    .error (.storage (.contextRow row.id (.taken "flow_contexts.id")))
  else .ok ()

/-- Files a context as new. The held copy is named and stamped before the row is tried. -/
def insert (fresh : String) (now : Moment) : Action (Holding Rows Context) Unit := do
  Action.ofExcept (← get).state.checkConnected
  Action.alter fun c => (c.named fresh).stamped now
  let row ← Action.ofExcept (contextRow (← Action.held))
  Action.ofExcept ((← get).state.checkFree row)
  modify fun h => { h with state := { h.state with contexts := h.state.contexts ++ [row] } }

def checkChange : Context.Change → Except Failure Unit
  | .node v => (cell v).map fun _ => ()
  | _ => .ok ()

def checkExpected : Option Int → Except Failure Unit
  | some n => checkSize n
  | none => .ok ()

/-- Refuses changes that take the node away, whose column requires one. -/
def checkNode (changes : List Context.Change) : Except Failure Unit :=
  if changes.contains (.node .null) then .error (.brokenRow (.missing "flow_contexts.node_uuid"))
  else .ok ()

def putContext (row : ContextRow) (r : Rows) : Rows :=
  { r with contexts := r.contexts.map fun x => if x.id = row.id then row else x }

/-- Changes a context, only at the expected version when one is given. Gives the new version. -/
def update (now : Moment) (id : Option String) (changes : List Context.Change)
    (expected : Option Int) (r : Rows) : Except Failure (Int × Rows) := do
  r.checkConnected
  Context.checkFields changes
  changes.forM checkChange
  checkExpected expected
  match r.contexts.find? fun row => some row.id = id with
  | none => throw (.contextNotFound id)
  | some row => do
    Context.checkVersion id expected row.version
    checkNode changes
    let next := row.advanced textCell changes now
    return (next.version, r.putContext next)

def getContext (id : Option String) (r : Rows) : Except Failure (Option Context) := do
  r.checkConnected
  (r.contexts.find? fun row => some row.id = id).mapM ContextRow.read

/-- The bound that a limit sets on the rows of an answer. It is read like a value of an integer
column; a negative one sets none. -/
def bound? (limit : Json) : Except Failure (Option Nat) :=
  if limit = .null then .ok none
  else do
    match integerCell (← cell limit) with
    | .int n => return if 0 ≤ n then some n.toNat else none
    | _ => throw (.brokenRow .mismatched)

def due (now : Option Moment) (limit : Json) (r : Rows) : Except Failure (List Context) := do
  r.checkConnected
  let bound ← bound? limit
  let found := r.contexts.filter fun row =>
    row.completed.isNone && row.wakeup.any fun t => now.any fun n => t ≤ n.millis
  let sorted := found.mergeSort fun a b => decide (a.wakeup.getD 0 ≤ b.wakeup.getD 0)
  (sorted.take (bound.getD sorted.length)).mapM ContextRow.read

def oldestFirst (rows : List ContextRow) : List ContextRow :=
  rows.mergeSort fun a b =>
    decide (a.inserted < b.inserted) || (a.inserted = b.inserted && decide (a.id ≤ b.id))

def children (parent : Option String) (r : Rows) : Except Failure (List Context) := do
  r.checkConnected
  let found := r.contexts.filter fun row => parent.isSome && row.parent = parent
  (oldestFirst found).mapM ContextRow.read

def ofContact (contact : Json) (includeCompleted : Bool) (r : Rows) :
    Except Failure (List Context) := do
  r.checkConnected
  let value := integerCell (← cell contact)
  let found := r.contexts.filter fun row =>
    value ≠ .null && row.contact.same value && (includeCompleted || row.completed.isNone)
  (oldestFirst found).mapM ContextRow.read

def nextWakeup (r : Rows) : Except Failure (Option Moment) := do
  r.checkConnected
  let times := r.contexts.filterMap fun row => if row.completed.isNone then row.wakeup else none
  times.min?.mapM fun t => (Moment.ofMillis t).dated

def reset (r : Rows) : Except Failure Rows := do
  r.checkConnected
  return { r with flows := [], revisions := [], contexts := [] }

end Rows
end DurableFlow.Store
