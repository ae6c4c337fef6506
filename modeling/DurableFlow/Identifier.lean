import DurableFlow.Json.Written
import DurableFlow.Uuid

/-! Flow identifiers. A flow is addressed by its number, its UUID or its shortcode; a text
that spells a UUID is one, and every other text is a shortcode. -/
namespace DurableFlow

/-- What a caller gives to name a flow: a JSON value or a UUID. -/
inductive Identifier where
  | value (v : Json)
  | uuid (u : Uuid)
  deriving DecidableEq

inductive FlowKey where
  | id (n : Int)
  | uuid (text : String)
  | shortcode (text : String)
  deriving DecidableEq, Repr

namespace Identifier

/-- The class of an identifier; only integers, texts and UUIDs have one. -/
def split? : Identifier → Option FlowKey
  | .uuid u => some (.uuid u.text)
  | .value (.int n) => some (.id n)
  | .value (.string s) =>
    match Uuid.ofText? s with
    | some u => some (.uuid u.text)
    | none => some (.shortcode s)
  | .value _ => none

def shown : Identifier → String
  | .uuid u => "UUID('" ++ u.text ++ "')"
  | .value v => v.shown

instance : Coe Int Identifier := ⟨fun n => .value (.int n)⟩

end Identifier

/-- The key without its class. A UUID and a shortcode of the same spelling are one entry. -/
def FlowKey.entry : FlowKey → Json
  | .id n => .int n
  | .uuid s => .string s
  | .shortcode s => .string s

end DurableFlow
