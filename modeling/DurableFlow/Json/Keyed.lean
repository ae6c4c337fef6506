import DurableFlow.Json

/-! Tables under JSON values as keys. A key is known by what it means, so that `1`, `1.0` and
`true` are one key; the key that was put first stays as it was written. -/
namespace DurableFlow

/-- A table under JSON values, in the order in which the keys were first put. -/
abbrev Keyed (α : Type) := List (Json × α)

namespace Keyed

variable {α β : Type}

/-- Sets the value under a key. A new key comes last; a known one keeps its place and spelling. -/
def put (key : Json) (value : α) : Keyed α → Keyed α
  | [] => [(key, value)]
  | (k, v) :: rest => if k.same key then (k, value) :: rest else (k, v) :: put key value rest

def find? (key : Json) : Keyed α → Option α
  | [] => none
  | (k, v) :: rest => if k.same key then some v else find? key rest

def ofTexts (f : α → β) (table : List (String × α)) : Keyed β :=
  table.map fun (key, value) => (.string key, f value)

/-- Looking up a text in a table under texts. -/
theorem find?_ofTexts (f : α → β) (key : String) (table : List (String × α)) :
    find? (.string key) (ofTexts f table) = (Table.find? key table).map f := by
  induction table with
  | nil => rfl
  | cons e rest ih =>
    obtain ⟨k, v⟩ := e
    simp only [ofTexts, List.map_cons, find?, Table.find?, Json.same, decide_eq_true_eq]
    split
    · rfl
    · exact ih

end Keyed
end DurableFlow
