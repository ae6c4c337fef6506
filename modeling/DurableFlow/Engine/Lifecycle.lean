import DurableFlow.Engine.Loading

/-! The life of a context: start, advance, suspend, resume, complete. Every change is one write,
guarded by the version that the caller last saw; only completion writes unguarded. Everything is
checked before the store is touched. -/
namespace DurableFlow.Engine

open DurableFlow.Flow (Graph)

def requireOpen (t : Transition) : OnCopy Unit := do
  let c ← Action.held
  if c.isCompleted then throw (.completed t c.id)

def writeHeld (changes : List Context.Change) (guarded : Bool) : OnCopy Unit := do
  let c ← Action.held
  let version ← Action.beside (update c.id changes (if guarded then some c.version else none))
  let updated ← Action.beside now
  Action.alter fun c => { c.applyAll changes with version, updated }

def remark (level : Level) (text : String) : OnCopy Unit := Action.beside (note level text)

def start (g : Graph) (contact : Json) (parent : Option String) : Run Context := do
  match g.entry? with
  | none => throw (.emptyFlow g.id)
  | some entry =>
    let time ← instant
    let c : Context := {
      id := none
      contact
      flow := g.id.getD 0
      flowUuid := g.uuid
      node := entry.uuid
      parent
      wakeup := none
      completed := none
      results := .object []
      version := 0
      inserted := time
      updated := time
      index := some g.index }
    let ((), c) ← Action.holding c insert
    note .info ("Started flow " ++ plainInt? g.id ++ " (" ++ plainText? g.shortcode ++
      ") for contact " ++ contact.plain ++ ": context=" ++ plainText? c.id ++ " parent=" ++
      plainText? parent)
    return c

/-- Gives the held context the node index of its flow, unless it has one. -/
def bind : OnCopy Flow.NodeIndex := do
  let c ← Action.held
  match c.index with
  | some i => return i
  | none =>
    let found ← Action.beside (fetch c.flow)
    Action.alter fun c => { c with index := some found.graph.index }
    return found.graph.index

def stored (id : Option String) : Run Context := do
  match ← ask .getContext (Store.getContext id) with
  | none => throw (.contextNotFound id)
  | some c => return c

def load (id : Option String) : Run Context := do
  let (_, c) ← Action.holding (← stored id) bind
  return c

def abandon {α : Type} (node : Json) : OnCopy α := do
  let c ← Action.held
  remark .error ("Context " ++ plainText? c.id ++ " references node " ++ node.plain ++
    s!" missing from flow {c.flow}, completing it")
  let t ← Action.beside now
  writeHeld [.completed (some t), .wakeup none] false
  throw (.dangling (← Action.held).id node)

/-- Follows an exit of the current node: to its destination, or to the end of the flow. -/
def advance (choice : Json) : OnCopy Unit := do
  requireOpen .advance
  let index ← bind
  let c ← Action.held
  match ← Action.ofExcept (index.lookup? c.node) with
  | none => abandon c.node
  | some node =>
    match ← Action.ofExcept (node.destination choice) with
    | none =>
      let t ← Action.beside now
      writeHeld [.completed (some t), .wakeup none] true
      remark .info ("Context " ++ plainText? c.id ++ s!" completed flow {c.flow}")
    | some destination =>
      match ← Action.ofExcept (index.lookup? destination) with
      | none => abandon destination
      | some _ =>
        writeHeld [.node destination, .wakeup none] true
        remark .debug ("Context " ++ plainText? c.id ++ ": " ++ c.node.plain ++ " -[" ++
          choice.plain ++ "]-> " ++ destination.plain)

/-- Parks a context on its node until a time, which may be past. Without a time the context is
written as one that does not wait, and only then refused. -/
def suspend (wakeup : Option Moment) : OnCopy Unit := do
  requireOpen .suspend
  writeHeld [.wakeup wakeup] true
  match wakeup with
  | some t =>
    remark .debug ("Context " ++ plainText? (← Action.held).id ++ " suspended until " ++ t.isoText)
  | none => throw (.notAnObject .null "isoformat")

def resume : OnCopy Unit := do
  requireOpen .resume
  writeHeld [.wakeup none] true
  let c ← Action.held
  remark .debug ("Context " ++ plainText? c.id ++ " resumed at node " ++ c.node.plain)

def complete : OnCopy Unit := do
  requireOpen .complete
  let t ← Action.beside now
  writeHeld [.completed (some t), .wakeup none] false
  let c ← Action.held
  remark .info ("Context " ++ plainText? c.id ++ " force-completed at node " ++ c.node.plain)

def reservedNames : List String := ["self", "context"]

def record (values : List (String × Json)) : OnCopy Unit := do
  match values.find? fun (name, _) => name ∈ reservedNames with
  | some (name, _) => throw (.reservedName name)
  | none =>
    requireOpen .record
    if !values.isEmpty then
      match (← Action.held).results with
      | .object old => writeHeld [.results (.object (Table.merge old values))] true
      | v => throw (.notAMapping v)

/-- Pushes a child context that runs a flow on top of the held one, which is suspended when a
wakeup time is given. -/
def enterSubFlow (flow : Identifier) (wakeup : Option Moment) : OnCopy Context := do
  requireOpen .enter
  let found ← Action.beside (fetch flow)
  if found.graph.isEmpty then throw (.emptyFlow found.graph.id)
  if wakeup.isSome then suspend wakeup
  let parent ← Action.held
  let child ← Action.beside (start found.graph parent.contact parent.id)
  remark .debug ("Context " ++ plainText? parent.id ++ " entered sub-flow " ++
    plainInt? found.graph.id ++ ": child=" ++ plainText? child.id)
  return child

/-- Pops the held child and gives its parent, resumed. An open child is completed first. -/
def exitSubFlow : OnCopy Context := do
  let child ← Action.held
  match child.parent with
  | none => throw (.notASubFlow child.id)
  | some parentId =>
    if !child.isCompleted then
      remark .warning ("Sub-flow context " ++ plainText? child.id ++ " exited before completing")
      complete
    let parent ← Action.beside (load (some parentId))
    let parent ← if parent.isSuspended then
        Action.beside do return (← Action.holding parent resume).2
      else pure parent
    remark .debug ("Context " ++ plainText? child.id ++ " returned to parent " ++
      plainText? parent.id)
    return parent

end DurableFlow.Engine
