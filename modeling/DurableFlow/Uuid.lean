import DurableFlow.Text.Numeral
import DurableFlow.Text.Quoted

/-! UUIDs: numbers below `2 ^ 128`, the spellings that are accepted for them, and the one
spelling in which they are printed. -/
namespace DurableFlow

structure Uuid where
  value : Fin (Nat.pow 2 128)
  deriving DecidableEq, Repr

namespace Uuid

def text (u : Uuid) : String :=
  let digits := Text.hexText 32 u.value.val
  let part (skip count : Nat) := (digits.drop skip).take count
  String.ofList (part 0 8 ++ '-' :: part 8 4 ++ '-' :: part 12 4 ++ '-' :: part 16 4 ++
    '-' :: part 20 12)

/-- Removes every occurrence of a pattern from left to right, after skipping some characters of
an occurrence already found. -/
def removeFrom (pattern : List Char) : Nat → List Char → List Char
  | _, [] => []
  | skip + 1, _ :: cs => removeFrom pattern skip cs
  | 0, c :: cs =>
    if pattern ≠ [] ∧ pattern.isPrefixOf (c :: cs) then removeFrom pattern (pattern.length - 1) cs
    else c :: removeFrom pattern 0 cs

def removeAll (pattern cs : List Char) : List Char := removeFrom pattern 0 cs

/-- The characters that must read as a number: without prefixes, outer braces and hyphens. -/
def digitsOf (s : String) : List Char :=
  let body := removeAll "uuid:".toList (removeAll "urn:".toList s.toList)
  (Text.trimBy (fun c => c = '\x7b' || c = '\x7d') body).filter (· ≠ '-')

def ofText? (s : String) : Option Uuid :=
  let digits := digitsOf s
  if digits.length = 32 then
    (Text.readHex (String.ofList digits)).bind fun n =>
      if h : n < Nat.pow 2 128 then some ⟨n, h⟩ else none
  else none

end Uuid
end DurableFlow
