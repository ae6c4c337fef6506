import DurableFlow.Binary64.Decimal
import DurableFlow.Table

/-! JSON values. Objects keep the order of their members; integers have no size limit and are
kept apart from binary64 numbers. -/
namespace DurableFlow

inductive Json where
  | null
  | bool (b : Bool)
  | int (n : Int)
  | double (d : Binary64)
  | string (s : String)
  | array (items : List Json)
  | object (members : List (String × Json))
  deriving Inhabited, Repr

namespace Json

mutual
/-- Decides whether two values are written alike: same kinds, same members in the same order. -/
def decEq : (a b : Json) → Decidable (a = b)
  | .null, .null => isTrue rfl
  | .bool a, .bool b => if h : a = b then isTrue (by rw [h]) else isFalse (by simp [h])
  | .int a, .int b => if h : a = b then isTrue (by rw [h]) else isFalse (by simp [h])
  | .double a, .double b => if h : a = b then isTrue (by rw [h]) else isFalse (by simp [h])
  | .string a, .string b => if h : a = b then isTrue (by rw [h]) else isFalse (by simp [h])
  | .array a, .array b =>
    match decEqItems a b with
    | isTrue h => isTrue (by rw [h])
    | isFalse h => isFalse (by simp [h])
  | .object a, .object b =>
    match decEqMembers a b with
    | isTrue h => isTrue (by rw [h])
    | isFalse h => isFalse (by simp [h])
  | .null, .bool _ | .null, .int _ | .null, .double _ | .null, .string _ | .null, .array _
  | .null, .object _ | .bool _, .null | .bool _, .int _ | .bool _, .double _
  | .bool _, .string _ | .bool _, .array _ | .bool _, .object _ | .int _, .null
  | .int _, .bool _ | .int _, .double _ | .int _, .string _ | .int _, .array _
  | .int _, .object _ | .double _, .null | .double _, .bool _ | .double _, .int _
  | .double _, .string _ | .double _, .array _ | .double _, .object _ | .string _, .null
  | .string _, .bool _ | .string _, .int _ | .string _, .double _ | .string _, .array _
  | .string _, .object _ | .array _, .null | .array _, .bool _ | .array _, .int _
  | .array _, .double _ | .array _, .string _ | .array _, .object _ | .object _, .null
  | .object _, .bool _ | .object _, .int _ | .object _, .double _ | .object _, .string _
  | .object _, .array _ => isFalse (by simp)
def decEqItems : (a b : List Json) → Decidable (a = b)
  | [], [] => isTrue rfl
  | [], _ :: _ => isFalse (by simp)
  | _ :: _, [] => isFalse (by simp)
  | a :: as, b :: bs =>
    match decEq a b, decEqItems as bs with
    | isTrue h, isTrue k => isTrue (by rw [h, k])
    | isFalse h, _ => isFalse (by simp [h])
    | _, isFalse k => isFalse (by simp [k])
def decEqMembers : (a b : List (String × Json)) → Decidable (a = b)
  | [], [] => isTrue rfl
  | [], _ :: _ => isFalse (by simp)
  | _ :: _, [] => isFalse (by simp)
  | (k, a) :: as, (l, b) :: bs =>
    match decEq a b, decEqMembers as bs with
    | isTrue h, isTrue t =>
      if e : k = l then isTrue (by rw [h, t, e]) else isFalse (by simp [e])
    | isFalse h, _ => isFalse (by simp [h])
    | _, isFalse t => isFalse (by simp [t])
end

instance : DecidableEq Json := decEq

/-- Whether a value counts as given. Null, false, zero and everything empty do not. -/
def isGiven : Json → Bool
  | .null => false
  | .bool b => b
  | .int n => n ≠ 0
  | .double d => !d.isZero
  | .string s => s ≠ ""
  | .array items => !items.isEmpty
  | .object members => !members.isEmpty

def members? : Json → Option (List (String × Json))
  | .object members => some members
  | _ => none

def items? : Json → Option (List Json)
  | .array items => some items
  | _ => none

def string? : Json → Option String
  | .string s => some s
  | _ => none

/-- The elements that a value has: the items of an array, the characters of a text, the keys of
an object. -/
def elements? : Json → Option (List Json)
  | .array items => some items
  | .string s => some (s.toList.map fun c => .string (String.ofList [c]))
  | .object members => some (members.map fun (key, _) => .string key)
  | _ => none

def find? (key : String) (members : List (String × Json)) : Option Json := Table.find? key members

def findD (key : String) (members : List (String × Json)) : Json := (find? key members).getD .null

/-- The place on the number line of a number; a truth value counts as zero or one. -/
def place? : Json → Option Binary64.Place
  | .bool b => some (.exactly (if b then 1 else 0))
  | .int n => some (.exactly (n : Rat))
  | .double d => d.place?
  | _ => none

mutual
/-- Whether two values mean the same: numbers by their place on the number line whatever their
kind, objects by their members whatever their order. -/
def same : Json → Json → Bool
  | .null, .null => true
  | .string a, .string b => a = b
  | .array a, .array b => sameItems a b
  | .object a, .object b => a.length = b.length && sameMembers a b
  | a, b =>
    match a.place?, b.place? with
    | some p, some q => p.same q
    | _, _ => false
def sameItems : List Json → List Json → Bool
  | [], [] => true
  | a :: as, b :: bs => same a b && sameItems as bs
  | _, _ => false
def sameMembers : List (String × Json) → List (String × Json) → Bool
  | [], _ => true
  | (k, a) :: rest, b =>
    (match find? k b with
      | some v => same a v
      | none => false) && sameMembers rest b
end

/-- Whether a value can serve as a key: everything but arrays and objects. -/
def isKey : Json → Bool
  | .array _ | .object _ => false
  | _ => true

end Json
end DurableFlow
