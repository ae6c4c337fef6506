import DurableFlow.Flow.Compile

/-! The registry: a snapshot of compiled flows, each filed under its number, its UUID and its
shortcode. All three entries hold the same compilation. -/
namespace DurableFlow

/-- A compilation of a flow. The serial tells it from every other one. -/
structure Compilation where
  serial : Nat
  graph : Flow.Graph
  deriving DecidableEq

/-- A snapshot of compilations, and the failures of the flows that it lacks, by number. What is
no identifier is filed under none. -/
structure Registry where
  entries : List (Option Json × Compilation)
  failures : List (Int × Failure)

namespace Registry

def empty : Registry := ⟨[], []⟩

def entryOf (i : Identifier) : Option Json := i.split?.map FlowKey.entry

def entriesOf (g : Flow.Graph) : List (Option Json) :=
  [Flow.intOrNull g.id, Flow.textOrNull g.uuid, Flow.textOrNull g.shortcode].map fun v =>
    entryOf (.value v)

def get? (r : Registry) (i : Identifier) : Option Compilation := Table.find? (entryOf i) r.entries

/-- The compilation of a flow number, wherever it is filed; the last entry wins. -/
def ofNumber? (r : Registry) (id : Option Int) : Option Compilation :=
  (r.entries.reverse.find? fun (_, c) => c.graph.id = id).map (·.2)

def serials (r : Registry) : List Nat := (r.entries.map fun (_, c) => c.serial).eraseDups

def size (r : Registry) : Nat := r.serials.length

def release (c : Compilation) (entry : Option Json) (r : Registry) : Registry :=
  if (Table.find? entry r.entries).any (·.serial = c.serial) then
    { r with entries := Table.erase entry r.entries }
  else r

/-- Takes the compilation that an identifier names out of the snapshot. -/
def evict (r : Registry) (i : Identifier) : Registry :=
  match r.get? i with
  | none => r
  | some c => (entriesOf c.graph).foldl (fun r entry => r.release c entry) r

/-- Files a compilation under its entries, in place of an earlier one of the same flow. -/
def insert (r : Registry) (c : Compilation) : Registry :=
  let number : Identifier := .value (Flow.intOrNull c.graph.id)
  let r := match r.get? number with
    | some old => if old.serial = c.serial then r else r.evict number
    | none => r
  { r with entries := (entriesOf c.graph).foldl (fun es entry => Table.put entry c es) r.entries }

def fail (r : Registry) (flow : Int) (f : Failure) : Registry :=
  { r with failures := Table.put flow f r.failures }

def mend (r : Registry) (flow : Int) : Registry :=
  { r with failures := Table.erase flow r.failures }

/-- Whether a compilation still stands for a flow: same document, same metadata. -/
def isCurrent (g : Flow.Graph) (d : Flow.Definition) (document : List (String × Json)) : Bool :=
  g.checksum = (Json.object document).checksum && g.uuid = d.uuid && g.shortcode = d.shortcode &&
    g.name = d.name && g.language.same (Flow.languageOf d document) && g.kind = d.kind &&
    g.format = d.format

def failureList (r : Registry) : List (Int × Failure) :=
  r.failures.mergeSort fun a b => decide (a.1 ≤ b.1)

def failureShown (f : Failure) : String :=
  match f with
  | .malformed flow fault =>
    "CompileError(flow_id=" ++ (Flow.intOrNull flow).shown ++ ", message=" ++
      Text.quoted fault.message ++ ")"
  | f => f.message

def shown (r : Registry) : String :=
  s!"FlowRegistry(flows={r.size}, failures={r.failures.length})"

end Registry
end DurableFlow
