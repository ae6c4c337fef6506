import DurableFlow.Context

/-! Rows: flows, revisions and contexts in the form in which a database keeps them. Every text
is present and every time is a whole number of milliseconds. -/
namespace DurableFlow.Store

open DurableFlow.Flow (Definition Revision Publishing)

structure FlowRow where
  id : Int
  uuid : String
  shortcode : String
  name : String
  language : String
  kind : Flow.Kind
  format : String
  deriving DecidableEq

def FlowRow.definition (r : FlowRow) : Definition :=
  ⟨some r.uuid, some r.shortcode, some r.name, some r.language, r.kind, some r.format, some r.id, []⟩

structure Snapshot where
  document : Json
  status : Publishing
  inserted : Int
  deriving DecidableEq

def Snapshot.revision (s : Snapshot) (flow number : Int) : Revision :=
  ⟨flow, number, s.document, s.status, Moment.ofMillis s.inserted, 0⟩

structure ContextRow where
  id : String
  contact : Json
  flow : Int
  flowUuid : String
  node : String
  parent : Option String
  wakeup : Option Int
  completed : Option Int
  results : Json
  version : Int
  inserted : Int
  updated : Int
  deriving DecidableEq

namespace ContextRow

/-- The context that a row stands for. The times of its filing come from a clock; the other two
may be such that no calendar shows them. -/
def context (r : ContextRow) : Context where
  id := some r.id
  contact := r.contact
  flow := r.flow
  flowUuid := some r.flowUuid
  node := .string r.node
  parent := r.parent
  wakeup := r.wakeup.map Moment.ofMillis
  completed := r.completed.map Moment.ofMillis
  results := r.results
  version := r.version
  inserted := Moment.ofMillis r.inserted
  updated := Moment.ofMillis r.updated
  index := none

def read (r : ContextRow) : Except Failure Context := r.context.dated

def isSuspended (r : ContextRow) : Bool := r.completed.isNone && r.wakeup.isSome

/-- The row after one change; the text of a node is written by the given function. -/
def apply (nodeText : Json → String) (r : ContextRow) : Context.Change → ContextRow
  | .node v => { r with node := nodeText v }
  | .wakeup t => { r with wakeup := t.map Moment.millis }
  | .completed t => { r with completed := t.map Moment.millis }
  | .results v => { r with results := v }
  | .other _ => r

def advanced (nodeText : Json → String) (changes : List Context.Change) (now : Moment)
    (r : ContextRow) : ContextRow :=
  { changes.foldl (apply nodeText) r with
    version := r.version + 1, updated := now.millis }

end ContextRow
end DurableFlow.Store
