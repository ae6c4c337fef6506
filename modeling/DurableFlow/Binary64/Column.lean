import DurableFlow.Binary64.Decimal

/-! Numbers and texts in the columns of a table. Between decimal and binary the columns count in
numbers with a mantissa of 64 bits, which are rounded after every multiplication by a power of ten.
So a text can differ in its last digit from the nearest one. -/
namespace DurableFlow.Binary64.Column

/-- The number with a mantissa of 64 bits that is nearest to a positive one; ties go to an even
mantissa. -/
def wide (q : Rat) : Rat :=
  let guess : Int := (q.num.natAbs.log2 : Int) - (q.den.log2 : Int)
  let top := if q < twoPow guess then guess - 1 else guess
  (roundHalfEven (q * twoPow (63 - top)) : Rat) * twoPow (top - 63)

/-- Multiplies by ten to a power, as long as the test holds of the number. The power is taken back
in the decimal exponent. The last argument bounds the steps. -/
def shiftWhile (test : Rat → Bool) (power : Int) : Nat → Rat × Int → Rat × Int
  | 0, x => x
  | steps + 1, (q, e) =>
    if test q then shiftWhile test power steps (wide (q * wide (tenPow power)), e - power) else (q, e)

/-- A positive number as `q * 10 ^ e` where the whole part of `q` has 18 or 19 digits. -/
def spread (q : Rat) : Rat × Int :=
  if tenPow 19 ≤ q then
    (q, 0) |> shiftWhile (fun q => wide (tenPow 119) ≤ q) (-100) 3
      |> shiftWhile (fun q => wide (tenPow 29) ≤ q) (-10) 10
      |> shiftWhile (fun q => tenPow 19 ≤ q) (-1) 10
  else
    (q, 0) |> shiftWhile (fun q => q < wide (tenPow (-97))) 100 4
      |> shiftWhile (fun q => q < tenPow 7) 10 11
      |> shiftWhile (fun q => q < tenPow 17) 1 11

/-- The first digits of `n * 10 ^ e`, up to a count. The digit after them rounds them, up from
five. -/
def leading (count n : Nat) (e : Int) : Nat × Int :=
  let extra := (toString n).length - count
  let kept := n / Nat.pow 10 extra
  let next := if extra = 0 then 0 else n / Nat.pow 10 (extra - 1) % 10
  (if 5 ≤ next then kept + 1 else kept, e + extra)

def digits (q : Rat) : Nat × Int :=
  let (q, e) := spread q
  let (n, e) := leading 15 q.floor.toNat e
  trim n e

/-- The text that a text column keeps of a number: up to fifteen digits, always with a point. -/
def text : Binary64 → String
  | .nan => ""
  | .infinite s => if s then "-Inf" else "Inf"
  | .finite s m e =>
    if m = 0 then "0.0" else
      let (n, f) := digits ((m : Rat) * twoPow e)
      (if s then "-" else "") ++ Layout.pointed.write n f

def fullSignificand : Nat := 1844674407370955160

/-- Reads digits into a significand. Digits for which it has no place count one step each. -/
def significand : List Nat → Nat → Nat × Nat
  | [], n => (n, 0)
  | d :: ds, n =>
    if n < fullSignificand then significand ds (n * 10 + d) else (n, ds.length + 1)

/-- Moves zeros from a positive exponent into a significand, as long as it has place for them. -/
def absorb : Nat → Nat → Nat × Nat
  | n, 0 => (n, 0)
  | n, e + 1 => if n ≤ fullSignificand then absorb (n * 10) e else (n, e + 1)

/-- Moves zeros from a significand into a negative exponent, given as its size. -/
def release : Nat → Nat → Nat × Nat
  | n, 0 => (n, 0)
  | n, e + 1 => if n % 10 = 0 then release (n / 10) e else (n, e + 1)

def shift (power : Int) (times : Nat) (q : Rat) : Rat :=
  (shiftWhile (fun _ => true) power times (q, 0)).1

/-- A positive number times ten to an exponent, in steps of a hundred, of ten and of one place. -/
def scaled (q : Rat) (e : Int) : Rat :=
  let size := e.natAbs
  let sign := if e < 0 then -1 else 1
  q |> shift (sign * 100) (size / 100) |> shift (sign * 10) (size / 10 % 10) |> shift sign (size % 10)

/-- The number that a column reads from the digits before and after a point and from an
exponent. -/
def ofDigits (negative : Bool) (whole fraction : List Nat) (exponent : Int) : Binary64 :=
  let (n, ignored) := significand whole 0
  let (n, unread) := significand fraction n
  let e : Int := exponent + ignored - ((fraction.length - unread : Nat) : Int)
  if n = 0 then zero negative
  else if 400 < e then .infinite negative
  else if e < -400 then zero negative
  else
    let (n, e) :=
      if 0 ≤ e then let (n, k) := absorb n e.toNat; (n, (k : Int))
      else let (n, k) := release n (-e).toNat; (n, -(k : Int))
    nearest negative (scaled (n : Rat) e)

end DurableFlow.Binary64.Column
