import DurableFlow.Engine

/-! Loading: from stored revisions to compilations in the registry. A malformed flow is noted and
skipped; the rest of a batch still loads. -/
namespace DurableFlow.Engine

open DurableFlow.Flow (Definition)

def loadDefinition (flow : Int) : Run (List (String × Json)) := do
  match ← ask .liveRevision (Store.liveRevision flow) with
  | none => throw (.noLiveRevision flow)
  | some r =>
    note .debug s!"Loaded live revision for flow_id={flow}"
    Action.ofExcept (Flow.clean r.document)

def compile (d : Definition) (document : List (String × Json)) : Run Compilation := do
  let graph ← Action.ofExcept (Flow.compile d (.object document))
  let e ← get
  set { e with compiled := e.compiled + 1 }
  note .debug ("Compiled flow " ++ plainInt? d.id ++ " (" ++ plainText? d.shortcode ++
    s!"): {graph.index.size} node(s)")
  return ⟨e.compiled, graph⟩

/-- Compiles the flow of an identifier from the store, past the registry. -/
def loadOne (identifier : Identifier) : Run Compilation := do
  match ← ask .getFlow (Store.getFlow identifier) with
  | none => throw (.flowNotFound identifier)
  | some d => compile d (← loadDefinition (d.id.getD 0))

def file (f : Registry → Registry) : Run Unit :=
  modify fun e => { e with registry := f e.registry }

/-- The compilation of a row, an earlier one if it is still current. None when the document is
malformed. -/
def compileRow (previous : Registry) (d : Definition) (document : List (String × Json)) :
    Run (Option Compilation) := do
  let kept := (previous.ofNumber? d.id).filter fun c => Registry.isCurrent c.graph d document
  match kept with
  | some c => return some c
  | none =>
    match ← Action.attempt (compile d document) with
    | .ok c => return some c
    | .error (.malformed flow fault) =>
      note .warning ("Skipping flow " ++ plainInt? d.id ++ " (" ++ plainText? d.shortcode ++ "): " ++
        fault.message)
      file fun r => r.fail (d.id.getD 0) (.malformed flow fault)
      return none
    | .error f => throw f

def loadRows (previous : Registry) : List (Definition × Json) → Nat → Run Unit
  | [], loaded => do
    let failed := (← get).registry.failures.length
    note .info s!"Loaded {loaded} flow(s), {failed} failed to compile"
  | (d, raw) :: rest, loaded => do
    match ← compileRow previous d (← Action.ofExcept (Flow.clean raw)) with
    | none => loadRows previous rest loaded
    | some c =>
      file fun r => (r.insert c).mend (d.id.getD 0)
      loadRows previous rest (loaded + 1)

/-- Compiles every flow with a live revision into the registry, or one of them. -/
def loadAll (only : Option Int) : Run Unit := do
  let rows ← ask .activeFlows (Store.activeFlows only)
  loadRows (← get).registry rows 0

/-- Empties the registry and loads every flow again. Unchanged flows keep their compilation. -/
def refresh : Run Unit := do
  let previous := (← get).registry
  file fun _ => .empty
  let rows ← ask .activeFlows (Store.activeFlows none)
  loadRows previous rows 0

/-- The compilation of an identifier, from the registry or else from the store. -/
def fetch (identifier : Identifier) : Run Compilation := do
  match (← get).registry.get? identifier with
  | some c => return c
  | none =>
    let c ← loadOne identifier
    file fun r => r.insert c
    return c

/-- Takes a flow out of the registry. Gives the compilation that was there. -/
def evict (identifier : Identifier) : Run (Option Compilation) := do
  let found := (← get).registry.get? identifier
  file fun r => r.evict identifier
  return found

end DurableFlow.Engine
