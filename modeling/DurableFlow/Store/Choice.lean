import DurableFlow.Store
import DurableFlow.Store.Path

/-! The choice of a store by a URL. -/
namespace DurableFlow.Store

inductive Choice where
  | memory
  | file (path : String)
  | server (url ns : String)
  deriving DecidableEq

namespace Choice

def after? (start s : String) : Option String :=
  if start.toList.isPrefixOf s.toList then some (String.ofList (s.toList.drop start.toList.length))
  else none

def ofUrl (url ns : String) : Except Failure Choice :=
  if (after? "memory://" url).isSome then .ok .memory
  else if (after? "sqlite://" url).isSome then
    match after? "sqlite:///" url with
    | none | some "" => .error (.setting (.noDatabasePath url))
    | some path => .ok (.file path)
  else if ["redis://", "rediss://", "unix://"].any fun scheme => (after? scheme url).isSome then
    .ok (.server url ns)
  else .error (.setting (.unknownScheme url))

def kindName : Choice → String
  | .memory => "InMemoryFlowStore"
  | .file _ => "SqliteFlowStore"
  | .server .. => "RedisFlowStore"

/-- The place of the tables that a path names; one path asks for tables in memory. -/
def tablePlace (path : String) : Except Failure (Option String) :=
  if path = ":memory:" then .ok none else (Path.check path).map fun () => some path

def openStore : Choice → Except Failure Store
  | .memory => .ok (.memory Memory.empty)
  | .file path => (tablePlace path).map fun place => .rows (Rows.empty place).connect
  | .server url ns => .ok (.keys (Keys.connect ⟨url, ns, false, []⟩))

end Choice
end DurableFlow.Store
