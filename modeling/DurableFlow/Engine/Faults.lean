/-! Faults: which store operations are going to fail, and how. -/
namespace DurableFlow

inductive Operation where
  | getFlow | liveRevision | activeFlows | insert | update | getContext | due | children
  | ofContact | nextWakeup
  deriving DecidableEq, Repr

/-- The faults to come. For each operation a list says which of its next calls fail; another
list says which of the next guarded updates lose their race. -/
structure Faults where
  failing : Operation → List Bool
  lost : List Bool
  broken : List String
  racing : Bool
  trigger : Option String
  script : Option String

namespace Faults

def none : Faults := ⟨fun _ => [], [], [], false, .none, .none⟩

/-- The faults in which the next calls of an operation fail as a list says. -/
def failNext (op : Operation) (calls : List Bool) (f : Faults) : Faults :=
  { f with failing := fun o => if o = op then calls else f.failing o }

end Faults

end DurableFlow
