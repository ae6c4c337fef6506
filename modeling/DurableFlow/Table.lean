/-! Tables: lists of keys with values, in the order in which the keys were first put. -/
namespace DurableFlow.Table

variable {κ α : Type} [DecidableEq κ]

/-- Sets the value under a key. A new key comes last; a known one keeps its place. -/
def put (key : κ) (value : α) : List (κ × α) → List (κ × α)
  | [] => [(key, value)]
  | (k, v) :: rest => if k = key then (k, value) :: rest else (k, v) :: put key value rest

def merge (old new : List (κ × α)) : List (κ × α) :=
  new.foldl (fun out (k, v) => put k v out) old

def erase (key : κ) (table : List (κ × α)) : List (κ × α) := table.filter fun (k, _) => k ≠ key

def find? (key : κ) : List (κ × α) → Option α
  | [] => none
  | (k, v) :: rest => if k = key then some v else find? key rest

/-- Looking up a key after putting one. -/
theorem find?_put (key other : κ) (value : α) (table : List (κ × α)) :
    find? other (put key value table) = if key = other then some value else find? other table := by
  induction table with
  | nil => simp [put, find?]
  | cons e rest ih => obtain ⟨k, v⟩ := e; grind [put, find?]

/-- Looking up a key after removing one. -/
theorem find?_erase (key other : κ) (table : List (κ × α)) :
    find? other (erase key table) = if key = other then none else find? other table := by
  induction table with
  | nil => simp [erase, find?]
  | cons e rest ih => obtain ⟨k, v⟩ := e; grind [erase, find?]

end DurableFlow.Table
