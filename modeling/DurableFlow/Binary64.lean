/-! Binary64 numbers, each held as an exact sign, mantissa and exponent, with
arithmetic that is exact first and rounded once. -/
namespace DurableFlow

/-- A binary64 number. `finite s m e` stands for `m * 2 ^ e`, negated when `s` holds.
Values built by `ofRat` have `m < 2 ^ 53`, `-1074 ≤ e`, and a full mantissa unless `e = -1074`. -/
inductive Binary64 where
  | finite (negative : Bool) (mantissa : Nat) (exponent : Int)
  | infinite (negative : Bool)
  | nan
  deriving DecidableEq, Repr, Inhabited

namespace Binary64

def zero (negative : Bool) : Binary64 := .finite negative 0 (-1074)

def twoPow (e : Int) : Rat :=
  if 0 ≤ e then (Nat.pow 2 e.toNat : Rat) else mkRat 1 (Nat.pow 2 (-e).toNat)

def roundHalfEven (q : Rat) : Int :=
  let low := q.floor
  let rest := q - (low : Rat)
  let half : Rat := mkRat 1 2
  if rest < half then low
  else if half < rest then low + 1
  else if low % 2 = 0 then low else low + 1

/-- The exponent that gives the positive number `q` a 53 bit mantissa, never below `-1074`. -/
def scaleOf (q : Rat) : Int :=
  let guess : Int := (q.num.natAbs.log2 : Int) - (q.den.log2 : Int)
  let top := if q < twoPow guess then guess - 1 else guess
  max (top - 52) (-1074)

/-- The binary64 number nearest to a magnitude, with the given sign; ties go to an even mantissa. -/
def nearest (negative : Bool) (magnitude : Rat) : Binary64 :=
  if magnitude ≤ 0 then zero negative
  else
    let e := scaleOf magnitude
    let m := (roundHalfEven (magnitude * twoPow (-e))).toNat
    let (m, e) := if m = Nat.pow 2 53 then (Nat.pow 2 52, e + 1) else (m, e)
    if 971 < e then .infinite negative else .finite negative m e

def ofRat (q : Rat) : Binary64 :=
  if q < 0 then nearest true (-q) else nearest false q

def value? : Binary64 → Option Rat
  | .finite s m e =>
    let q := (m : Rat) * twoPow e
    some (if s then -q else q)
  | _ => none

def isNegative : Binary64 → Bool
  | .finite s _ _ => s
  | .infinite s => s
  | .nan => false

def isZero : Binary64 → Bool
  | .finite _ m _ => m == 0
  | _ => false

/-- A nearest binary64 number of an integer; none when it is beyond the largest one. -/
def ofInt? (n : Int) : Option Binary64 :=
  match ofRat (n : Rat) with
  | .infinite _ => none
  | d => some d

/-- Sum, rounded once. An exact zero is positive unless both terms are negative zeros. -/
def add : Binary64 → Binary64 → Binary64
  | .nan, _ => .nan
  | _, .nan => .nan
  | .infinite s, .infinite t => if s = t then .infinite s else .nan
  | .infinite s, _ => .infinite s
  | _, .infinite t => .infinite t
  | a@(.finite s _ _), b@(.finite t _ _) =>
    let q := (a.value?.getD 0) + (b.value?.getD 0)
    if q = 0 then zero (s && t) else ofRat q

def mul : Binary64 → Binary64 → Binary64
  | .nan, _ => .nan
  | _, .nan => .nan
  | .finite s m e, .finite t n f =>
    nearest (s != t) (((m * n : Nat) : Rat) * twoPow (e + f))
  | a, b =>
    if a.isZero || b.isZero then .nan else .infinite (a.isNegative != b.isNegative)

def div (d : Binary64) (n : Nat) : Binary64 :=
  match d with
  | .finite s m e => nearest s ((m : Rat) * twoPow e / (n : Rat))
  | d => d

/-- A place on the number line with its two ends; a value that is not a number has no place. -/
inductive Place where
  | below
  | exactly (q : Rat)
  | above

def place? : Binary64 → Option Place
  | .nan => none
  | .infinite true => some .below
  | .infinite false => some .above
  | d => d.value?.map .exactly

def Place.lt : Place → Place → Bool
  | .below, .below => false
  | .below, _ => true
  | _, .below => false
  | .exactly p, .exactly q => decide (p < q)
  | .exactly _, .above => true
  | .above, _ => false

def Place.same : Place → Place → Bool
  | .below, .below => true
  | .exactly p, .exactly q => decide (p = q)
  | .above, .above => true
  | _, _ => false

/-- A mantissa cut to its leading 256 bits, the exponent taking up the rest. -/
def cut (m : Nat) (e : Int) : Nat × Int :=
  let extra := m.log2 + 1 - 256
  (m >>> extra, e + (extra : Int))

/-- Power of `m * 2 ^ e` by repeated squaring on mantissas cut to 256 bits. -/
def cutPower (m : Nat) (e : Int) (n : Nat) : Nat × Int :=
  if _h : n = 0 then (1, 0)
  else
    let (a, f) := cutPower m e (n / 2)
    let (a, f) := cut (a * a) (f + f)
    if n % 2 = 0 then (a, f) else cut (a * m) (f + e)
termination_by n
decreasing_by omega

def strip (m : Nat) (e : Int) : Nat × Int :=
  if h : m ≠ 0 ∧ m % 2 = 0 then strip (m / 2) (e + 1) else (m, e)
termination_by m
decreasing_by omega

/-- Outcome of a power: a number, a magnitude too large, or a division by zero. -/
inductive Power where
  | number (d : Binary64)
  | tooLarge
  | zeroDivision

/-- An integer power of a binary64 number. Magnitudes far outside the format are settled by
their exponent alone, so no number of that size is built. -/
def pow (base : Binary64) (n : Int) : Power :=
  let odd := n % 2 = 1
  if n = 0 then .number (nearest false 1)
  else match base with
    | .nan => .number .nan
    | .infinite s => .number (if 0 < n then .infinite (s && odd) else zero (s && odd))
    | .finite s 0 _ => if n < 0 then .zeroDivision else .number (zero (s && odd))
    | .finite s m e =>
      let (m, e) := strip m e
      let (a, f) := cutPower m e n.natAbs
      let size : Int := if 0 < n then f + (a.log2 : Int) else -(f + (a.log2 : Int))
      if 1100 < size then .tooLarge
      else if size < -1200 then .number (zero (s && odd))
      else
        let q := (a : Rat) * twoPow f
        match nearest (s && odd) (if 0 < n then q else q⁻¹) with
        | .infinite _ => .tooLarge
        | d => .number d

end Binary64
end DurableFlow
