import DurableFlow.Binary64

/-! Scored sets: members in the order of their scores, equal scores in the order of the members'
names. A score is a binary64 number. -/
namespace DurableFlow.Store.Scored

/-- The score that an integer becomes: itself up to 53 bits, and the nearest binary64 number
beyond. -/
def scoreOf (n : Int) : Int :=
  if n.natAbs ≤ Nat.pow 2 53 then n
  else match (Binary64.ofInt? n).bind Binary64.value? with
    | some q => q.floor
    | none => n

variable {α : Type}

def isBefore (name : α → String) (a b : α × Int) : Bool :=
  decide (a.2 < b.2) || (a.2 = b.2 && decide (name a.1 < name b.1))

def insert (name : α → String) (e : α × Int) : List (α × Int) → List (α × Int)
  | [] => [e]
  | x :: rest => if isBefore name e x then e :: x :: rest else x :: insert name e rest

def remove [DecidableEq α] (member : α) (set : List (α × Int)) : List (α × Int) := set.filter fun x => x.1 ≠ member

def add [DecidableEq α] (name : α → String) (member : α) (score : Int) (set : List (α × Int)) : List (α × Int) :=
  insert name (member, scoreOf score) (remove member set)

def upTo (bound : Int) (set : List (α × Int)) : List α :=
  (set.filter fun x => x.2 ≤ scoreOf bound).map (·.1)

/-- An entry put into a set is one of its entries, and the others stay. -/
theorem mem_insert (name : α → String) (e x : α × Int) (set : List (α × Int)) :
    x ∈ insert name e set ↔ x = e ∨ x ∈ set := by
  induction set with
  | nil => simp [insert]
  | cons y rest ih =>
    simp only [insert]
    split <;> simp [ih, or_left_comm]

end DurableFlow.Store.Scored
