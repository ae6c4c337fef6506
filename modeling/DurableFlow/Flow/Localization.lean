import DurableFlow.Failure
import DurableFlow.Json.Keyed

/-! The texts of a flow in several languages. A text is addressed by a content key; a lookup asks the
requested language, then the default language, then the default texts, and last answers with
the key itself. -/
namespace DurableFlow.Flow

def contentKey (item field : Json) : String := item.plain ++ "." ++ field.plain

def textOf? : Json → Option String
  | .string s => some s
  | .array (.string s :: _) => some s
  | _ => none

def groupTexts (item : String) (fields : List (String × Json)) (out : List (String × String)) :
    List (String × String) :=
  fields.foldl (fun out (field, v) =>
    match textOf? v with
    | some s => Table.put (contentKey (.string item) (.string field)) s out
    | none => out) out

/-- The texts of one language, given flat or grouped by item. What carries no text is dropped. -/
def entryTexts (entries : List (String × Json)) : List (String × String) :=
  entries.foldl (fun out (key, v) =>
    match v with
    | .object fields => groupTexts key fields out
    | v =>
      match textOf? v with
      | some s => Table.put key s out
      | none => out) []

/-- The texts of a document's localization block, by language and content key. -/
def flatten (block : Json) : Except Failure (List (String × List (String × String))) :=
  if block.isGiven then
    match block with
    | .object languages => .ok (languages.filterMap fun (language, v) =>
        v.members?.map fun entries => (language, entryTexts entries))
    | v => .error (.notAnObject v "items")
  else .ok []

/-- A table of texts by language. A text may stand under any value that can be a key. -/
structure Localization where
  languages : List (String × Keyed Json)
  defaults : Keyed Json
  defaultLanguage : Json
  deriving DecidableEq

namespace Localization

def pairOf (v : Json) : Except Failure (Json × Json) :=
  match v.elements? with
  | none => .error (.notIterable v)
  | some [key, value] => if key.isKey then .ok (key, value) else .error (.notAKey key)
  | some _ => .error .notAPair

/-- The members of a table given as an object or as a list of pairs, where the last pair of a key
wins. -/
def tableOf : Json → Except Failure (Keyed Json)
  | .object members => .ok (Keyed.ofTexts id members)
  | v =>
    match v.elements? with
    | none => .error (.notIterable v)
    | some pairs => do
      return (← pairs.mapM pairOf).foldl (fun out (key, value) => Keyed.put key value out) []

def ofValues (languages defaults defaultLanguage : Json) : Except Failure Localization := do
  let languages ←
    if languages.isGiven then
      match languages with
      | .object members => members.mapM fun (l, v) => (tableOf v).map fun t => (l, t)
      | v => .error (.notAnObject v "items")
    else .ok []
  let defaults ← if defaults.isGiven then tableOf defaults else .ok []
  return ⟨languages, defaults, defaultLanguage⟩

def lookup? {α : Type} (key : Json) (find : Json → Option α) : Except Failure (Option α) :=
  if key.isKey then .ok (find key) else .error (.notAKey key)

def texts? (t : Localization) : Json → Option (Keyed Json)
  | .string language => Table.find? language t.languages
  | _ => none

def override? (t : Localization) (language key : Json) : Except Failure (Option Json) :=
  if language = .null then .ok none
  else do
    match ← lookup? language t.texts? with
    | none => return none
    | some texts => lookup? key fun k => Keyed.find? k texts

def localize (t : Localization) (language key : Json) : Except Failure Json := do
  match ← t.override? language key with
  | some v => return v
  | none =>
    match ← t.override? t.defaultLanguage key with
    | some v => return v
    | none => return (← lookup? key fun k => Keyed.find? k t.defaults).getD key

def contains (t : Localization) (language : Json) : Except Failure Bool :=
  (lookup? language t.texts?).map Option.isSome

def shown (t : Localization) : String :=
  "Localization(languages=" ++
    Text.quotedList ((t.languages.map (·.1)).mergeSort fun a b => decide (a ≤ b)) ++
    ", default_language=" ++ t.defaultLanguage.shown ++ ")"

end Localization
end DurableFlow.Flow
