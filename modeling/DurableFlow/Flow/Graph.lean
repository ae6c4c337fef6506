import DurableFlow.Flow.Definition
import DurableFlow.Flow.Localization

/-! Compiled flows: nodes with their actions and exits, found by the value that names them.
Nodes refer to each other by name only. -/
namespace DurableFlow.Flow

structure Action where
  uuid : Json
  type : Json
  attributes : List (String × Json)
  deriving DecidableEq

def Action.get (a : Action) (name : String) (default : Json) : Json :=
  (Json.find? name a.attributes).getD default

/-- An outgoing edge. Without a destination the flow ends there. -/
structure Exit where
  uuid : Json
  destination : Option Json
  deriving DecidableEq

structure Node where
  uuid : Json
  actions : List Action
  exits : List Exit
  router : Option (List (String × Json))
  deriving DecidableEq

/-- The exit with an index. Negative indexes are refused like those past the end; a truth value
counts as zero or one. -/
def Node.exitAt (n : Node) (choice : Json) : Except Failure Exit :=
  let refuse : Except Failure Exit := .error (.noSuchExit n.uuid choice n.exits.length)
  let pick (k : Int) : Except Failure Exit :=
    if k < 0 then refuse
    else match n.exits[k.toNat]? with
      | some e => .ok e
      | none => refuse
  match choice with
  | .int k => pick k
  | .bool b => pick (if b then 1 else 0)
  | .double d =>
    match d.place? with
    | some p =>
      if p.lt (.exactly 0) || !p.lt (.exactly (n.exits.length : Rat)) then refuse
      else .error (.notAnIndex choice)
    | none => .error (.notAnIndex choice)
  | v => .error (.notComparable v)

/-- The name of the node behind an exit, none when the exit ends the flow. -/
def Node.destination (n : Node) (choice : Json) : Except Failure (Option Json) :=
  (n.exitAt choice).map Exit.destination

structure NodeIndex where
  nodes : List Node
  deriving DecidableEq

namespace NodeIndex

def size (i : NodeIndex) : Nat := i.nodes.length

def find? (i : NodeIndex) (uuid : Json) : Option Node := i.nodes.find? (·.uuid.same uuid)

def lookup? (i : NodeIndex) (uuid : Json) : Except Failure (Option Node) :=
  if uuid.isKey then .ok (i.find? uuid) else .error (.notAKey uuid)

def get (i : NodeIndex) (uuid : Json) : Except Failure Node := do
  match ← i.lookup? uuid with
  | some n => return n
  | none => throw .unknownKey

def position (i : NodeIndex) (uuid : Json) : Except Failure Nat :=
  if uuid.isKey then
    match i.nodes.findIdx? (·.uuid.same uuid) with
    | some k => .ok k
    | none => .error .unknownKey
  else .error (.notAKey uuid)

def restrict (i : NodeIndex) (names : List Json) : NodeIndex :=
  ⟨i.nodes.filter fun n => names.any (n.uuid.same ·)⟩

def shown (i : NodeIndex) : String := s!"NodeIndex(size={i.size})"

end NodeIndex

structure Graph where
  id : Option Int
  uuid : Option String
  shortcode : Option String
  name : Option String
  language : Json
  kind : Kind
  format : Option String
  index : NodeIndex
  localization : Localization
  checksum : Nat
  deriving DecidableEq

namespace Graph

def entry? (g : Graph) : Option Node := g.index.nodes.head?

def isEmpty (g : Graph) : Bool := g.index.nodes.isEmpty

def shown (g : Graph) : String :=
  "CompiledFlow(id=" ++ (intOrNull g.id).shown ++ ", uuid=" ++ (textOrNull g.uuid).shown ++
    ", shortcode=" ++ (textOrNull g.shortcode).shown ++ s!", nodes={g.index.size})"

end Graph
end DurableFlow.Flow
