import DurableFlow.Json.Written
import DurableFlow.Moment

/-! Stored flows: identity and metadata, and the numbered revisions of their documents. The
revision numbered zero is the live one. -/
namespace DurableFlow.Flow

inductive Kind where
  | message | survey | campaign
  deriving DecidableEq, Repr

def Kind.word : Kind → String
  | .message => "message"
  | .survey => "survey"
  | .campaign => "campaign"

def Kind.ofWord? (s : String) : Option Kind := [Kind.message, .survey, .campaign].find? (·.word = s)

/-- The publishing states of a revision. They are informational: only the number decides. -/
inductive Publishing where
  | draft | published | archived
  deriving DecidableEq, Repr

def Publishing.word : Publishing → String
  | .draft => "draft"
  | .published => "published"
  | .archived => "archived"

def Publishing.ofWord? (s : String) : Option Publishing :=
  [Publishing.draft, .published, .archived].find? (·.word = s)

/-- A snapshot of a flow's document. `serial` tells two saves of one store apart. -/
structure Revision where
  flow : Int
  number : Int
  document : Json
  status : Publishing
  inserted : Moment
  serial : Nat
  deriving DecidableEq

def Revision.isLive (r : Revision) : Bool := r.number = 0

def Revision.shown (r : Revision) : String :=
  s!"FlowRevision(flow_id={r.flow}, revision_number={r.number}, status=" ++ r.status.word ++ ")"

/-- Identity and metadata of a flow. The number is assigned by the first save. -/
structure Definition where
  uuid : Option String
  shortcode : Option String
  name : Option String
  language : Option String
  kind : Kind
  format : Option String
  id : Option Int
  revisions : List Revision
  deriving DecidableEq

def Definition.live? (d : Definition) : Option Revision := d.revisions.find? (·.isLive)

def textOrNull (s : Option String) : Json :=
  match s with
  | some s => .string s
  | none => .null

def intOrNull (n : Option Int) : Json :=
  match n with
  | some n => .int n
  | none => .null

def Definition.shown (d : Definition) : String :=
  "FlowDefinition(id=" ++ (intOrNull d.id).shown ++ ", uuid=" ++ (textOrNull d.uuid).shown ++
    ", shortcode=" ++ (textOrNull d.shortcode).shown ++ ", flow_type=" ++ d.kind.word ++ ")"

end DurableFlow.Flow
