import DurableFlow.Json
import DurableFlow.Text.Quoted

/-! The written forms of JSON values: the text of a document, its canonical text with sorted
keys, and the two texts that messages show. -/
namespace DurableFlow.Json

private def escapeUnit (n : Nat) : List Char := '\\' :: 'u' :: Text.hexText 4 n

/-- One character of a JSON text. Everything outside printable ASCII is escaped, by a pair of
surrogates beyond the basic plane. -/
def escapeChar (c : Char) : List Char :=
  if c = '"' then ['\\', '"']
  else if c = '\\' then ['\\', '\\']
  else if c = '\n' then ['\\', 'n']
  else if c = '\r' then ['\\', 'r']
  else if c = '\t' then ['\\', 't']
  else if c.toNat = 8 then ['\\', 'b']
  else if c.toNat = 12 then ['\\', 'f']
  else if ' ' ≤ c ∧ c ≤ '~' then [c]
  else if c.toNat < 0x10000 then escapeUnit c.toNat
  else
    let n := c.toNat - 0x10000
    escapeUnit (0xD800 + n / 0x400) ++ escapeUnit (0xDC00 + n % 0x400)

def stringText (s : String) : String :=
  String.ofList ('"' :: s.toList.flatMap escapeChar ++ ['"'])

def numberText : Binary64 → String
  | .nan => "NaN"
  | .infinite s => if s then "-Infinity" else "Infinity"
  | d => d.text

structure Separators where
  item : String
  key : String

def Separators.compact : Separators := ⟨",", ":"⟩

mutual
def text (sep : Separators) : Json → String
  | .null => "null"
  | .bool b => if b then "true" else "false"
  | .int n => toString n
  | .double d => numberText d
  | .string s => stringText s
  | .array items => "[" ++ sep.item.intercalate (itemTexts sep items) ++ "]"
  | .object members => "\x7b" ++ sep.item.intercalate (memberTexts sep members) ++ "\x7d"
def itemTexts (sep : Separators) : List Json → List String
  | [] => []
  | a :: rest => text sep a :: itemTexts sep rest
def memberTexts (sep : Separators) : List (String × Json) → List String
  | [] => []
  | (k, a) :: rest => (stringText k ++ sep.key ++ text sep a) :: memberTexts sep rest
end

mutual
/-- A value with the members of every object sorted by key, in code point order. -/
def sorted : Json → Json
  | .array items => .array (sortedItems items)
  | .object members => .object ((sortedMembers members).mergeSort fun a b => decide (a.1 ≤ b.1))
  | v => v
def sortedItems : List Json → List Json
  | [] => []
  | a :: rest => sorted a :: sortedItems rest
def sortedMembers : List (String × Json) → List (String × Json)
  | [] => []
  | (k, a) :: rest => (k, sorted a) :: sortedMembers rest
end

def canonical (v : Json) : String := text .compact (sorted v)

mutual
def shown : Json → String
  | .null => "None"
  | .bool b => if b then "True" else "False"
  | .int n => toString n
  | .double d => d.text
  | .string s => Text.quoted s
  | .array items => "[" ++ ", ".intercalate (shownItems items) ++ "]"
  | .object members => "\x7b" ++ ", ".intercalate (shownMembers members) ++ "\x7d"
def shownItems : List Json → List String
  | [] => []
  | a :: rest => shown a :: shownItems rest
def shownMembers : List (String × Json) → List String
  | [] => []
  | (k, a) :: rest => (Text.quoted k ++ ": " ++ shown a) :: shownMembers rest
end

/-- The text of a value as it stands in running text: a string without quotes. -/
def plain : Json → String
  | .string s => s
  | v => shown v

end DurableFlow.Json
