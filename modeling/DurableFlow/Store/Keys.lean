import DurableFlow.Action
import DurableFlow.Store.Row
import DurableFlow.Store.Scored
import DurableFlow.Text.Glob

/-! The store on a key-value server. Every key starts with the store's namespace. The wakeup set
is written in the same step as the row it indexes. -/
namespace DurableFlow.Store

open DurableFlow.Flow (Definition Revision Publishing)

inductive Entry where
  | counter (n : Int)
  | owners (table : List (String × Int))
  | flow (row : FlowRow)
  | numbers (set : List (Int × Int))
  | snapshots (items : List Snapshot)
  | context (row : ContextRow)
  | members (set : List (String × Int))
  deriving DecidableEq

abbrev Server := List (String × Entry)

namespace Server

def holds (key : String) (s : Server) : Bool := (Table.find? key s).isSome

def counter (key : String) (s : Server) : Except Failure Int :=
  match Table.find? key s with
  | none => .ok 0
  | some (.counter n) => .ok n
  | some _ => .error .wrongEntry

def owners (key : String) (s : Server) : Except Failure (List (String × Int)) :=
  match Table.find? key s with
  | none => .ok []
  | some (.owners t) => .ok t
  | some _ => .error .wrongEntry

def flow? (key : String) (s : Server) : Except Failure (Option FlowRow) :=
  match Table.find? key s with
  | none => .ok none
  | some (.flow r) => .ok (some r)
  | some _ => .error .wrongEntry

def numbers (key : String) (s : Server) : Except Failure (List (Int × Int)) :=
  match Table.find? key s with
  | none => .ok []
  | some (.numbers t) => .ok t
  | some _ => .error .wrongEntry

def snapshots (key : String) (s : Server) : Except Failure (List Snapshot) :=
  match Table.find? key s with
  | none => .ok []
  | some (.snapshots t) => .ok t
  | some _ => .error .wrongEntry

def context? (key : String) (s : Server) : Except Failure (Option ContextRow) :=
  match Table.find? key s with
  | none => .ok none
  | some (.context r) => .ok (some r)
  | some _ => .error .wrongEntry

def members (key : String) (s : Server) : Except Failure (List (String × Int)) :=
  match Table.find? key s with
  | none => .ok []
  | some (.members t) => .ok t
  | some _ => .error .wrongEntry

def addMember (key member : String) (score : Int) (s : Server) : Except Failure Server :=
  (s.members key).map fun set => Table.put key (.members (Scored.add id member score set)) s

def removeMember (key member : String) (s : Server) : Except Failure Server :=
  (s.members key).map fun set => Table.put key (.members (Scored.remove member set)) s

end Server

structure Keys where
  url : String
  ns : String
  connected : Bool
  server : Server
  deriving DecidableEq

namespace Keys

def connect (k : Keys) : Keys := { k with connected := true }

def close (k : Keys) : Keys := { k with connected := false }

def shown (k : Keys) : String :=
  "RedisFlowStore(" ++ k.url ++ ", namespace=" ++ Text.quoted k.ns ++ ")"

def checkConnected (k : Keys) : Except Failure Unit :=
  if k.connected then .ok () else .error (.storage .notConnected)

def key (k : Keys) (parts : List String) : String := ":".intercalate (k.ns :: parts)

def flowKey (k : Keys) (flow : Int) : String := k.key ["flow", toString flow]

def revisionsKey (k : Keys) (flow : Int) : String := k.key ["revisions", toString flow]

def contextKey (k : Keys) (id : Option String) : String := k.key ["context", plainText? id]

def wakeupsKey (k : Keys) : String := k.key ["wakeups"]

def childrenKey (k : Keys) (parent : Option String) : String :=
  k.key ["children", plainText? parent]

def contactKey (k : Keys) (contact : Json) : String := k.key ["contact", contact.plain]

def argument (v : Option String) : Except Failure String :=
  match v with
  | some s => .ok s
  | none => .error (.refusedArgument .null)

def checkOwner (k : Keys) (index : String) (name : Option String) (d : Definition) :
    Except Failure Unit := do
  let owners ← k.server.owners (k.key [index])
  match Table.find? (← argument name) owners with
  | none => return ()
  | some owner =>
    if some owner = d.id then return ()
    else throw (.storage (.identityTaken d.uuid d.shortcode))

/-- Files a flow with its names; the names of the row that it replaces are given up. -/
def fileFlow (k : Keys) (id : Int) (d : Definition) (previous : Option FlowRow) :
    Except Failure Server := do
  let row : FlowRow := ⟨id, ← argument d.uuid, ← argument d.shortcode, ← argument d.name,
    ← argument d.language, d.kind, ← argument d.format⟩
  let giveUp (name : FlowRow → String) (table : List (String × Int)) :=
    match previous with
    | some old => Table.erase (name old) table
    | none => table
  let byUuid ← k.server.owners (k.key ["flow_by_uuid"])
  let byShortcode ← k.server.owners (k.key ["flow_by_shortcode"])
  let numbers ← k.server.numbers (k.key ["flows"])
  return k.server
    |> Table.put (k.flowKey id) (.flow row)
    |> Table.put (k.key ["flow_by_uuid"])
        (.owners (Table.put row.uuid id (giveUp FlowRow.uuid byUuid)))
    |> Table.put (k.key ["flow_by_shortcode"])
        (.owners (Table.put row.shortcode id (giveUp FlowRow.shortcode byShortcode)))
    |> Table.put (k.key ["flows"]) (.numbers (Scored.add toString id id numbers))

/-- Saves identity and metadata. A flow without a number draws one from the counter, and keeps
it when the rest fails. -/
def saveFlow : Action (Holding Keys Definition) Unit := do
  let k := (← get).state
  let d ← Action.held
  Action.ofExcept k.checkConnected
  Action.ofExcept (k.checkOwner "flow_by_uuid" d.uuid d)
  Action.ofExcept (k.checkOwner "flow_by_shortcode" d.shortcode d)
  match d.id with
  | some id =>
    let previous ← Action.ofExcept (k.server.flow? (k.flowKey id))
    let server ← Action.ofExcept (k.fileFlow id d previous)
    modify fun h => { h with state := { k with server } }
  | none =>
    let counterKey := k.key ["flow_seq"]
    let id := (← Action.ofExcept (k.server.counter counterKey)) + 1
    let k := { k with server := Table.put counterKey (.counter id) k.server }
    set (Holding.mk k { d with id := some id })
    let server ← Action.ofExcept (k.fileFlow id d none)
    modify fun h => { h with state := { k with server } }

/-- Saves a revision as the live one: it becomes the first of the list. -/
def saveRevision (now : Moment) (flow : Int) (document : Json) (status : Publishing) (k : Keys) :
    Except Failure (Revision × Keys) := do
  k.checkConnected
  if !k.server.holds (k.flowKey flow) then throw (.storage (.flowMissing flow))
  let older ← k.server.snapshots (k.revisionsKey flow)
  let newest : Snapshot := ⟨document, status, now.millis⟩
  return (⟨flow, 0, document, status, now, 0⟩,
    { k with server := Table.put (k.revisionsKey flow) (.snapshots (newest :: older)) k.server })

def resolve? (identifier : Identifier) (k : Keys) : Except Failure (Option Int) := do
  match ← identifier.key with
  | .id n => return some n
  | .uuid s => return Table.find? s (← k.server.owners (k.key ["flow_by_uuid"]))
  | .shortcode s => return Table.find? s (← k.server.owners (k.key ["flow_by_shortcode"]))

def getFlow (identifier : Identifier) (k : Keys) : Except Failure (Option Definition) := do
  k.checkConnected
  match ← k.resolve? identifier with
  | none => return none
  | some flow =>
    match ← k.server.flow? (k.flowKey flow) with
    | none => return none
    | some row =>
      let items ← k.server.snapshots (k.revisionsKey flow)
      return some { row.definition with
        revisions := items.mapIdx fun number s => s.revision flow number }

def liveRevision (flow : Int) (k : Keys) : Except Failure (Option Revision) := do
  k.checkConnected
  let items ← k.server.snapshots (k.revisionsKey flow)
  return items.head?.map fun s => s.revision flow 0

/-- Every flow with a live revision and that revision's document, by number. -/
def activeFlows (only : Option Int) (k : Keys) : Except Failure (List (Definition × Json)) := do
  k.checkConnected
  let flows ← match only with
    | some flow => pure [flow]
    | none => (k.server.numbers (k.key ["flows"])).map fun set => set.map (·.1)
  flows.filterMapM fun flow => do
    match ← k.server.flow? (k.flowKey flow) with
    | none => return none
    | some row =>
      let items ← k.server.snapshots (k.revisionsKey flow)
      return items.head?.map fun s => (row.definition, s.document)

def fieldText : Json → String
  | .null => ""
  | v => v.plain

/-- The row of a context. A parent's empty id cannot be told from none. -/
def contextRow (c : Context) : ContextRow where
  id := c.id.getD ""
  contact := c.contact
  flow := c.flow
  flowUuid := c.flowUuid.getD ""
  node := fieldText c.node
  parent := c.parent.filter (· ≠ "")
  wakeup := c.wakeup.map Moment.millis
  completed := c.completed.map Moment.millis
  results := c.results
  version := c.version
  inserted := c.inserted.millis
  updated := c.updated.millis

/-- The context read off a row. A contact is an integer or a value whose text reads as one. -/
def readRow (r : ContextRow) : Except Failure Context :=
  match r.contact with
  | .int _ => r.read
  | v =>
    match Text.readInteger (fieldText v) with
    | some n => ({ r with contact := .int n } : ContextRow).read
    | none => .error (.notANumeral (fieldText v))

def checkFree (k : Keys) (id : String) : Except Failure Unit :=
  if k.server.holds (k.contextKey (some id)) then .error (.storage (.contextTaken id)) else .ok ()

def adopt (k : Keys) (id : String) (parent : Option String) (inserted : Int) (s : Server) :
    Except Failure Server :=
  if parent.isSome then Server.addMember (k.childrenKey parent) id inserted s else .ok s

def schedule (k : Keys) (id : String) (row : ContextRow) (s : Server) : Except Failure Server :=
  match row.isSuspended, row.wakeup with
  | true, some t => Server.addMember k.wakeupsKey id t s
  | _, _ => .ok s

/-- Puts a new row under its key and into the sets of its contact, its parent and the wakeups. -/
def fileRow (k : Keys) (id : String) (parent : Option String) (row : ContextRow) :
    Except Failure Server := do
  let s := Table.put (k.contextKey (some id)) (Entry.context row) k.server
  let s ← Server.addMember (k.contactKey row.contact) id row.inserted s
  let s ← k.adopt id parent row.inserted s
  k.schedule id row s

/-- Files a context as new, with its places in the sets. The held copy is named first and stamped
when nothing stands under its id. -/
def insert (fresh : String) (now : Moment) : Action (Holding Keys Context) Unit := do
  let k := (← get).state
  Action.ofExcept k.checkConnected
  Action.alter (Context.named fresh)
  let id := ((← Action.held).id).getD ""
  Action.ofExcept (k.checkFree id)
  Action.alter (Context.stamped now)
  let c ← Action.held
  let server ← Action.ofExcept (k.fileRow id c.parent (contextRow c))
  modify fun h => { h with state := { k with server } }

def writeRow (k : Keys) (rowKey id : String) (row : ContextRow) : Except Failure Server :=
  let s := Table.put rowKey (Entry.context row) k.server
  match row.isSuspended, row.wakeup with
  | true, some t => Server.addMember k.wakeupsKey id t s
  | _, _ => Server.removeMember k.wakeupsKey id s

/-- Changes a context, only at the expected version when one is given. Gives the new version. A
script fault, while there is one, fails every change with its text. -/
def update (now : Moment) (scriptFault : Option String) (id : Option String)
    (changes : List Context.Change) (expected : Option Int) (k : Keys) :
    Except Failure (Int × Keys) := do
  k.checkConnected
  Context.checkFields changes
  let failed (text : String) : Failure := .storage (.contextUpdate id text)
  match scriptFault, id with
  | some text, _ => throw (failed text)
  | none, none => throw (failed (Failure.refusedArgument .null).message)
  | none, some member =>
    let rowKey := k.contextKey id
    match k.server.context? rowKey with
    | .error e => throw (failed e.message)
    | .ok none => throw (.contextNotFound id)
    | .ok (some row) => do
      Context.checkVersion id expected row.version
      let next := row.advanced fieldText changes now
      match k.writeRow rowKey member next with
      | .error e => throw (failed e.message)
      | .ok server => return (next.version, { k with server })

def contextAt (id : Option String) (k : Keys) : Except Failure (Option Context) := do
  match ← k.server.context? (k.contextKey id) with
  | none => return none
  | some row => return some (← readRow row)

def getContext (id : Option String) (k : Keys) : Except Failure (Option Context) := do
  k.checkConnected
  k.contextAt id

def rowsOf (ids : List String) (k : Keys) : Except Failure (List Context) :=
  ids.filterMapM fun id => k.contextAt (some id)

/-- The count that an argument of a command spells: a signed 64-bit integer, or the text of one
without any further character. -/
def count (v : Json) : Except Failure Int :=
  let fitting (n : Int) : Except Failure Int :=
    if -Nat.pow 2 63 ≤ n ∧ n < Nat.pow 2 63 then .ok n else .error .notACount
  match v with
  | .int n => fitting n
  | .double _ => .error .notACount
  | .string s =>
    match Text.readInteger s with
    | some n => if toString n = s then fitting n else .error .notACount
    | none => .error .notACount
  | v => .error (.refusedArgument v)

/-- The bound that a limit sets on the ids of an answer; a negative one sets none. -/
def bound? (limit : Json) : Except Failure (Option Nat) :=
  if limit = .null then .ok none
  else (count limit).map fun n => if 0 ≤ n then some n.toNat else none

def score (time : Option Moment) : Except Failure Int :=
  match time with
  | some t => .ok t.millis
  | none => .error (.notANumeral "")

def dueIds (now : Option Moment) (limit : Json) (k : Keys) : Except Failure (List String) := do
  let latest ← score now
  let bound ← bound? limit
  let found := Scored.upTo latest (← k.server.members k.wakeupsKey)
  return found.take (bound.getD found.length)

/-- Due contexts, earliest wakeup first: first the ids are read, then the rows. -/
def due (now : Option Moment) (limit : Json) (k : Keys) : Except Failure (List Context) := do
  k.checkConnected
  k.rowsOf (← k.dueIds now limit)

def children (parent : Option String) (k : Keys) : Except Failure (List Context) := do
  k.checkConnected
  let set ← k.server.members (k.childrenKey parent)
  k.rowsOf (set.map (·.1))

def ofContact (contact : Json) (includeCompleted : Bool) (k : Keys) :
    Except Failure (List Context) := do
  k.checkConnected
  let set ← k.server.members (k.contactKey contact)
  let found ← k.rowsOf (set.map (·.1))
  return found.filter fun c => includeCompleted || !c.isCompleted

def nextWakeup (k : Keys) : Except Failure (Option Moment) := do
  k.checkConnected
  let set ← k.server.members k.wakeupsKey
  set.head?.mapM fun (_, score) => (Moment.ofMillis score).dated

def reset (k : Keys) : Except Failure Keys := do
  k.checkConnected
  let pattern := k.key ["*"]
  return { k with server := k.server.filter fun (key, _) => !Text.Glob.isMatch pattern key }

end Keys
end DurableFlow.Store
