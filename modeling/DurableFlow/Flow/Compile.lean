import DurableFlow.Flow.Graph
import DurableFlow.Json.Checksum

/-! From a flow document to its graph. Nodes are read once in document order; destinations are
checked when all nodes are known, so an exit may point forward. -/
namespace DurableFlow.Flow

/-- The body of a document: unwrapped from its envelope, without the layout block. -/
def clean (document : Json) : Except Failure (List (String × Json)) :=
  match document with
  | .object members =>
    let body := match Json.find? "definition" members with
      | some (.object inner) => inner
      | _ => members
    .ok (body.filter fun (key, _) => key ≠ "_ui")
  | v => .error (.notAnObject v "get")

def elements (v : Json) : Except Failure (List Json) :=
  if v.isGiven then
    match v.elements? with
    | some items => .ok items
    | none => .error (.notIterable v)
  else .ok []

def givenOr (fallback : Json) (key : String) (members : List (String × Json)) : Json :=
  let v := Json.findD key members
  if v.isGiven then v else fallback

def readAction (fail : DocumentFault → Failure) (node action : Json) : Except Failure Action :=
  match action with
  | .object members => .ok {
      uuid := givenOr (.string "") "uuid" members
      type := givenOr (.string "") "type" members
      attributes := members.filter fun (key, _) => key ≠ "uuid" && key ≠ "type" }
  | _ => .error (fail (.actionNotAnObject node))

def readExit (fail : DocumentFault → Failure) (node exit : Json) : Except Failure Exit :=
  match exit with
  | .object members =>
    let uuid := Json.findD "uuid" members
    let destination := Json.findD "destination_uuid" members
    if uuid.isGiven then .ok ⟨uuid, if destination.isGiven then some destination else none⟩
    else .error (fail (.exitWithoutUuid node))
  | _ => .error (fail (.exitNotAnObject node))

def readNode (fail : DocumentFault → Failure) (position : Nat) (node : Json) :
    Except Failure Node :=
  match node with
  | .object members => do
    let uuid := Json.findD "uuid" members
    if !uuid.isGiven then throw (fail (.nodeWithoutUuid position))
    let actions ← (← elements (Json.findD "actions" members)).mapM (readAction fail uuid)
    let exits ← (← elements (Json.findD "exits" members)).mapM (readExit fail uuid)
    match Json.findD "router" members with
    | .null => return ⟨uuid, actions, exits, none⟩
    | .object router => return ⟨uuid, actions, exits, some router⟩
    | _ => throw (fail (.routerNotAnObject uuid))
  | _ => .error (fail (.nodeNotAnObject position))

def structuralFields : List String := ["uuid", "type", "exit_uuid", "category_uuid"]

def itemDefaults (defaults : List (String × Json)) (item : List (String × Json)) :
    List (String × Json) :=
  let uuid := Json.findD "uuid" item
  if uuid.isGiven then
    item.foldl (fun out (field, v) =>
      if field ∈ structuralFields then out
      else match textOf? v with
        | some s => Table.put (contentKey uuid (.string field)) (.string s) out
        | none => out) defaults
  else defaults

/-- The items of a node that may carry texts: its actions, then the cases and the categories of
its router. -/
def textItems (n : Node) : Except Failure (List (List (String × Json))) := do
  let actions := n.actions.map fun a => ("uuid", a.uuid) :: a.attributes
  match n.router with
  | none => return actions
  | some router =>
    let cases ← elements (Json.findD "cases" router)
    let categories ← elements (Json.findD "categories" router)
    return actions ++ cases.filterMap Json.members? ++ categories.filterMap Json.members?

/-- Reads nodes in order, refusing a repeated name, and collects their default texts. -/
def readNodes (fail : DocumentFault → Failure) :
    Nat → List Node → List (String × Json) → List Json → Except Failure (List Node × List (String × Json))
  | _, seen, defaults, [] => .ok (seen, defaults)
  | position, seen, defaults, v :: rest => do
    let node ← readNode fail position v
    if !node.uuid.isKey then throw (.notAKey node.uuid)
    if seen.any (·.uuid.same node.uuid) then throw (fail (.repeatedNode node.uuid))
    let items ← textItems node
    readNodes fail (position + 1) (seen ++ [node]) (items.foldl itemDefaults defaults) rest

def checkExit (fail : DocumentFault → Failure) (index : NodeIndex) (node : Node) (exit : Exit) :
    Except Failure Unit :=
  match exit.destination with
  | none => .ok ()
  | some d => do
    match ← index.lookup? d with
    | some _ => return ()
    | none => throw (fail (.unknownDestination exit.uuid node.uuid d))

/-- The default language: the definition's own unless it is empty, else the document's. -/
def languageOf (definition : Definition) (document : List (String × Json)) : Json :=
  match definition.language with
  | some "" | none => Json.findD "language" document
  | some l => .string l

def compile (definition : Definition) (document : Json) : Except Failure Graph := do
  let fail := Failure.malformed definition.id
  match document with
  | .object members =>
    match Json.findD "nodes" members with
    | .array values =>
      let (nodes, defaults) ← readNodes fail 0 [] [] values
      let index : NodeIndex := ⟨nodes⟩
      for node in nodes do
        for exit in node.exits do
          checkExit fail index node exit
      let language := languageOf definition members
      let overrides ← flatten (Json.findD "localization" members)
      return {
        id := definition.id
        uuid := definition.uuid
        shortcode := definition.shortcode
        name := definition.name
        language
        kind := definition.kind
        format := definition.format
        index
        localization :=
          ⟨overrides.map fun (l, texts) => (l, Keyed.ofTexts .string texts),
            Keyed.ofTexts id defaults, language⟩
        checksum := document.checksum }
    | _ => throw (fail .noNodeList)
  | v => throw (fail (.notAnObject v))

end DurableFlow.Flow
