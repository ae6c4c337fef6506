import DurableFlow.Json
import DurableFlow.Text.Numeral

/-! Reading JSON texts. A key that comes twice in one object keeps its first place and its
last value. -/
namespace DurableFlow.Json

private def isGap (c : Char) : Bool := c = ' ' || c = '\n' || c = '\r' || c = '\t'

private def skip (cs : List Char) : List Char := cs.dropWhile isGap

private def readUnit : List Char → Option (Nat × List Char)
  | a :: b :: c :: d :: rest => do
    let a ← Text.hexValue? a
    let b ← Text.hexValue? b
    let c ← Text.hexValue? c
    let d ← Text.hexValue? d
    some (((a * 16 + b) * 16 + c) * 16 + d, rest)
  | _ => none

private def simpleEscape : Char → Option Char
  | '"' => some '"'
  | '\\' => some '\\'
  | '/' => some '/'
  | 'b' => some (Char.ofNat 8)
  | 'f' => some (Char.ofNat 12)
  | 'n' => some '\n'
  | 'r' => some '\r'
  | 't' => some '\t'
  | _ => none

private def readString : Nat → List Char → List Char → Option (String × List Char)
  | 0, _, _ => none
  | _ + 1, _, [] => none
  | _ + 1, out, '"' :: rest => some (String.ofList out.reverse, rest)
  | fuel + 1, out, '\\' :: 'u' :: rest => do
    let (high, rest) ← readUnit rest
    if 0xD800 ≤ high ∧ high < 0xDC00 then
      match rest with
      | '\\' :: 'u' :: more => do
        let (low, more) ← readUnit more
        if 0xDC00 ≤ low ∧ low < 0xE000 then
          readString fuel (Char.ofNat (0x10000 + (high - 0xD800) * 0x400 + (low - 0xDC00)) :: out) more
        else none
      | _ => none
    else readString fuel (Char.ofNat high :: out) rest
  | fuel + 1, out, '\\' :: c :: rest => do
    let c ← simpleEscape c
    readString fuel (c :: out) rest
  | fuel + 1, out, c :: rest => readString fuel (c :: out) rest

private def isNumberChar (c : Char) : Bool :=
  c.isDigit || c = '-' || c = '+' || c = '.' || c = 'e' || c = 'E'

private def numberOf (cs : List Char) : Option Json :=
  let (negative, body) := Text.splitSign cs
  if body ≠ [] ∧ body.all Char.isDigit then
    let n : Int := (Text.digitsValue 10 (body.map fun c => c.toNat - 48) : Int)
    some (.int (if negative then -n else n))
  else (Text.readDecimal negative body).map .double

private def words : List (List Char × Json) :=
  [("null".toList, .null), ("true".toList, .bool true), ("false".toList, .bool false),
   ("NaN".toList, .double .nan), ("Infinity".toList, .double (.infinite false)),
   ("-Infinity".toList, .double (.infinite true))]

private def readWord (cs : List Char) : Option (Json × List Char) :=
  (words.find? fun (w, _) => w.isPrefixOf cs).map fun (w, v) => (v, cs.drop w.length)

mutual
private def readValue : Nat → List Char → Option (Json × List Char)
  | 0, _ => none
  | fuel + 1, cs =>
    match skip cs with
    | '"' :: rest => (readString (rest.length + 1) [] rest).map fun (s, rest) => (.string s, rest)
    | '[' :: rest =>
      match skip rest with
      | ']' :: rest => some (.array [], rest)
      | rest => (readItems fuel [] rest).map fun (items, rest) => (.array items, rest)
    | '\x7b' :: rest =>
      match skip rest with
      | '\x7d' :: rest => some (.object [], rest)
      | rest => (readMembers fuel [] rest).map fun (members, rest) => (.object members, rest)
    | cs =>
      match readWord cs with
      | some found => some found
      | none =>
        (numberOf (cs.takeWhile isNumberChar)).map fun v => (v, cs.dropWhile isNumberChar)
private def readItems : Nat → List Json → List Char → Option (List Json × List Char)
  | 0, _, _ => none
  | fuel + 1, out, cs => do
    let (v, rest) ← readValue fuel cs
    match skip rest with
    | ',' :: rest => readItems fuel (v :: out) rest
    | ']' :: rest => some ((v :: out).reverse, rest)
    | _ => none
private def readMembers : Nat → List (String × Json) → List Char →
    Option (List (String × Json) × List Char)
  | 0, _, _ => none
  | fuel + 1, out, cs => do
    match skip cs with
    | '"' :: rest =>
      let (key, rest) ← readString (rest.length + 1) [] rest
      match skip rest with
      | ':' :: rest =>
        let (v, rest) ← readValue fuel rest
        match skip rest with
        | ',' :: rest => readMembers fuel (Table.put key v out) rest
        | '\x7d' :: rest => some (Table.put key v out, rest)
        | _ => none
      | _ => none
    | _ => none
end

def ofText? (s : String) : Option Json :=
  let cs := s.toList
  match readValue (2 * cs.length + 2) cs with
  | some (v, rest) => if skip rest = [] then some v else none
  | none => none

end DurableFlow.Json
