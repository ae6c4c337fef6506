import DurableFlow.Binary64.Decimal
import DurableFlow.Text.Blank
import DurableFlow.Text.Digit

/-! Numerals as people type them: blanks around them, an optional sign, digits of any script,
and single underscores between digits. -/
namespace DurableFlow.Text

/-- The five ASCII controls and the space, which are the blanks of an ASCII numeral. -/
def isAsciiBlank (c : Char) : Bool :=
  c = ' ' || (9 ≤ c.toNat && c.toNat ≤ 13)

/-- A numeral in ASCII. A text with other characters has its blanks and digits turned into
ASCII ones first; what remains is no part of any numeral. -/
def plainNumeral (cs : List Char) : List Char :=
  if cs.all (fun c => c.toNat < 128) then cs
  else cs.map fun c =>
    if c.toNat < 128 then c
    else if isBlank c then ' '
    else match digitValue? c with
      | some d => Char.ofNat (48 + d)
      | none => '?'

def numeralBody (s : String) : List Char := trimBy isAsciiBlank (plainNumeral s.toList)

def splitSign : List Char → Bool × List Char
  | '-' :: cs => (true, cs)
  | '+' :: cs => (false, cs)
  | cs => (false, cs)

def hexValue? (c : Char) : Option Nat :=
  if '0' ≤ c ∧ c ≤ '9' then some (c.toNat - 48)
  else if 'a' ≤ c ∧ c ≤ 'f' then some (c.toNat - 87)
  else if 'A' ≤ c ∧ c ≤ 'F' then some (c.toNat - 55)
  else none

def groupedDigits (base : Nat) : List Char → Option (List Nat)
  | [] => none
  | [c] => (hexValue? c).bind fun d => if d < base then some [d] else none
  | c :: '_' :: cs => do
    let d ← hexValue? c
    if d < base then (groupedDigits base cs).map (d :: ·) else none
  | c :: cs => do
    let d ← hexValue? c
    if d < base then (groupedDigits base cs).map (d :: ·) else none

def digitsValue (base : Nat) (ds : List Nat) : Nat := ds.foldl (fun n d => n * base + d) 0

def longestInteger : Nat := 4300

def leadingDigits (s : String) : Nat :=
  ((splitSign (numeralBody s)).2.takeWhile fun c => c.isDigit || c = '_').countP Char.isDigit

def readInteger (s : String) : Option Int :=
  let (negative, cs) := splitSign (numeralBody s)
  match groupedDigits 10 cs with
  | none => none
  | some ds =>
    if longestInteger < ds.length then none
    else some (if negative then -(digitsValue 10 ds : Int) else (digitsValue 10 ds : Int))

/-- The natural number of a hexadecimal numeral, which may carry a `0x` before its digits. -/
def readHex (s : String) : Option Nat :=
  let (negative, cs) := splitSign (numeralBody s)
  let digits := match cs with
    | '0' :: x :: '_' :: rest => if x = 'x' ∨ x = 'X' then rest else cs
    | '0' :: x :: rest => if x = 'x' ∨ x = 'X' then rest else cs
    | _ => cs
  match (groupedDigits 16 digits).map (digitsValue 16) with
  | some n => if negative ∧ n ≠ 0 then none else some n
  | none => none

/-- Drops the underscores of a numeral, each of which must stand between two digits. -/
def dropUnderscores : Bool → List Char → Option (List Char)
  | _, [] => some []
  | afterDigit, '_' :: cs =>
    match cs with
    | d :: _ => if afterDigit && d.isDigit then dropUnderscores false cs else none
    | [] => none
  | _, c :: cs => (dropUnderscores c.isDigit cs).map (c :: ·)

def exponentOf (cs : List Char) : Option Int :=
  let (negative, ds) := splitSign cs
  if ds ≠ [] ∧ ds.all Char.isDigit then
    let n : Int := (digitsValue 10 (ds.map fun c => c.toNat - 48) : Int)
    some (if negative then -n else n)
  else none

/-- The digits of an unsigned decimal before and after its point, and its exponent. Point and
exponent may be missing, but not all digits. -/
def decimalParts (cs : List Char) : Option (List Nat × List Nat × Int) :=
  let value (c : Char) : Nat := c.toNat - 48
  let whole := cs.takeWhile Char.isDigit
  let rest := cs.dropWhile Char.isDigit
  let (fraction, rest) := match rest with
    | '.' :: more => (more.takeWhile Char.isDigit, more.dropWhile Char.isDigit)
    | _ => ([], rest)
  if whole ++ fraction = [] then none
  else match rest with
    | [] => some (whole.map value, fraction.map value, 0)
    | e :: more =>
      if e = 'e' ∨ e = 'E' then
        (exponentOf more).map fun x => (whole.map value, fraction.map value, x)
      else none

def readDecimal (negative : Bool) (cs : List Char) : Option Binary64 :=
  (decimalParts cs).map fun (whole, fraction, e) =>
    Binary64.ofDecimal negative (digitsValue 10 (whole ++ fraction)) (e - fraction.length)

/-- The binary64 number of a decimal numeral, or of a name of an infinity or of no number. -/
def readBinary64 (s : String) : Option Binary64 := do
  let body ← dropUnderscores false (numeralBody s)
  let (negative, cs) := splitSign body
  let word := String.ofList (cs.map Char.toLower)
  if word = "inf" ∨ word = "infinity" then some (.infinite negative)
  else if word = "nan" then some .nan
  else readDecimal negative cs

end DurableFlow.Text
