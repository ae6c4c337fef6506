import DurableFlow.Store.Keys
import DurableFlow.Store.Memory
import DurableFlow.Store.Rows

/-! The store of an engine: one of three kinds with the same operations. Each operation is one
atomic step. -/
namespace DurableFlow

open DurableFlow.Flow (Definition Revision Publishing)

inductive Store where
  | memory (m : Store.Memory)
  | rows (r : Store.Rows)
  | keys (k : Store.Keys)
  deriving DecidableEq

namespace Store

def within {σ κ : Type} (wrap : σ → Store) (s : σ)
    (act : Action (Holding σ κ) Unit) : Action (Holding Store κ) Unit := fun h =>
  match act ⟨s, h.held⟩ with
  | .ok () g => .ok () ⟨wrap g.state, g.held⟩
  | .error e g => .error e ⟨wrap g.state, g.held⟩

def wrapped {σ α : Type} (wrap : σ → Store) (r : Except Failure (α × σ)) :
    Except Failure (α × Store) :=
  r.map fun (a, s) => (a, wrap s)

def keepHeld {κ : Type} (f : Except Failure (κ × Store)) :
    Action (Holding Store κ) Unit := fun h =>
  match f with
  | .ok (held, state) => .ok () ⟨state, held⟩
  | .error e => .error e h

/-- Saves identity and metadata of the held flow, which keeps the number it is given. -/
def saveFlow : Action (Holding Store Definition) Unit := do
  let d ← Action.held
  match (← get).state with
  | .memory m => keepHeld (wrapped .memory (m.saveFlow d))
  | .rows r => keepHeld (wrapped .rows (r.saveFlow d))
  | .keys k => within .keys k Keys.saveFlow

def saveRevision (now : Moment) (trigger : Option String) (flow : Int) (document : Json)
    (status : Publishing) : Store → Except Failure (Revision × Store)
  | .memory m => wrapped .memory (m.saveRevision now flow document status)
  | .rows r => wrapped .rows (r.saveRevision now trigger flow document status)
  | .keys k => wrapped .keys (k.saveRevision now flow document status)

/-- A saved revision as its holder sees it now. Only the store in memory shares it. -/
def currentRevision (r : Revision) : Store → Revision
  | .memory m => m.currentRevision r
  | _ => r

/-- Drops the live revision of a flow, leaving the other numbers alone. -/
def dropLive (flow : Int) : Store → Store
  | .memory m => .memory (m.dropLive flow)
  | .rows r => .rows (r.dropLive flow)
  | .keys k => .keys k

def getFlow (identifier : Identifier) : Store → Except Failure (Option Definition)
  | .memory m => identifier.key.map m.getFlow
  | .rows r => r.getFlow identifier
  | .keys k => k.getFlow identifier

def liveRevision (flow : Int) : Store → Except Failure (Option Revision)
  | .memory m => .ok (m.liveRevision flow)
  | .rows r => r.liveRevision flow
  | .keys k => k.liveRevision flow

/-- Every flow with a live revision and that revision's document, by number. -/
def activeFlows (only : Option Int) : Store → Except Failure (List (Definition × Json))
  | .memory m => .ok (m.activeFlows only)
  | .rows r => r.activeFlows only
  | .keys k => k.activeFlows only

def insert (fresh : String) (now : Moment) : Action (Holding Store Context) Unit := do
  match (← get).state with
  | .memory m => within .memory m (Memory.insert fresh now)
  | .rows r => within .rows r (Rows.insert fresh now)
  | .keys k => within .keys k (Keys.insert fresh now)

/-- Changes a context, only at the expected version when one is given. Gives the new version. -/
def update (now : Moment) (scriptFault : Option String) (id : Option String)
    (changes : List Context.Change) (expected : Option Int) :
    Store → Except Failure (Int × Store)
  | .memory m => wrapped .memory (m.update now id changes expected)
  | .rows r => wrapped .rows (r.update now id changes expected)
  | .keys k => wrapped .keys (k.update now scriptFault id changes expected)

def getContext (id : Option String) : Store → Except Failure (Option Context)
  | .memory m => .ok (m.getContext id)
  | .rows r => r.getContext id
  | .keys k => k.getContext id

def due (now : Option Moment) (limit : Json) : Store → Except Failure (List Context)
  | .memory m => m.due now limit
  | .rows r => r.due now limit
  | .keys k => k.due now limit

def children (parent : Option String) : Store → Except Failure (List Context)
  | .memory m => .ok (m.children parent)
  | .rows r => r.children parent
  | .keys k => k.children parent

def ofContact (contact : Json) (includeCompleted : Bool) : Store → Except Failure (List Context)
  | .memory m => .ok (m.ofContact contact includeCompleted)
  | .rows r => r.ofContact contact includeCompleted
  | .keys k => k.ofContact contact includeCompleted

def nextWakeup : Store → Except Failure (Option Moment)
  | .memory m => m.nextWakeup
  | .rows r => r.nextWakeup
  | .keys k => k.nextWakeup

def contextCount : Store → Nat
  | .memory m => m.contexts.length
  | .rows r => r.contexts.length
  | .keys k => k.server.length

def reset : Store → Except Failure Store
  | .memory m => .ok (.memory { Memory.empty with saves := m.saves })
  | .rows r => r.reset.map .rows
  | .keys k => k.reset.map .keys

def connect : Store → Store
  | .memory m => .memory m
  | .rows r => .rows r.connect
  | .keys k => .keys k.connect

def close : Store → Store
  | .memory m => .memory m
  | .rows r => .rows r.close
  | .keys k => .keys k.close

/-- A new connected store in the same place. What a store keeps in memory is gone. -/
def reopen : Store → Store
  | .memory m => .memory { Memory.empty with saves := m.saves }
  | .rows r => .rows r.close.connect
  | .keys k => .keys k.close.connect

def shown : Store → String
  | .memory m => m.shown
  | .rows r => r.shown
  | .keys k => k.shown

end Store
end DurableFlow
