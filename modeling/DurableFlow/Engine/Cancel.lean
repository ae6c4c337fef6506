import DurableFlow.Engine.Lifecycle

/-! Cancelling: a context is completed after its open sub-flows, depth first. -/
namespace DurableFlow.Engine

mutual
/-- Completes the open sub-flows below a parent; `depth` bounds the nesting. -/
def cancelChildren (parent : Option String) : Nat → Run Unit
  | 0 => throw .tooDeep
  | depth + 1 => do
    cancelEach depth (← ask .children (Store.children parent))
  termination_by depth => (depth, 0)

def cancelEach (depth : Nat) : List Context → Run Unit
  | [] => return ()
  | c :: rest => do
    cancelChildren c.id depth
    if !c.isCompleted then discard <| Action.holding c complete
    cancelEach depth rest
  termination_by cs => (depth, cs.length + 1)
end

/-- Completes a stored context, and with `cascade` its open sub-flows before it. -/
def cancel (id : Option String) (cascade : Bool) : Run Context := do
  let c ← stored id
  if c.isCompleted then throw (.completed .cancel id)
  if cascade then cancelChildren id ((← get).store.contextCount + 1)
  return (← Action.holding c complete).2

end DurableFlow.Engine
