import DurableFlow.Binary64

/-! Decimal texts of binary64 numbers: the fewest digits that read back, digits to a fixed
count, and the layouts that place the point. -/
namespace DurableFlow.Binary64

def tenPow (e : Int) : Rat :=
  if 0 ≤ e then (Nat.pow 10 e.toNat : Rat) else mkRat 1 (Nat.pow 10 (-e).toNat)

/-- The place of the point: the least `p` with `q < 10 ^ p`, for a positive `q`. -/
def pointOf (q : Rat) : Int :=
  let bits : Int := (q.num.natAbs.log2 : Int) - (q.den.log2 : Int)
  let guess : Int := Int.fdiv (bits * 1233) 4096 - 1
  let step (p : Int) : Int := if q < tenPow p then p else p + 1
  step (step (step (step guess)))

/-- The integer nearest to `q`, or the second nearest neighbour of the grid, whichever
satisfies the test; the nearer one is asked first and a tie prefers the even one. -/
def nearestHit (q : Rat) (hit : Nat → Bool) : Option Nat :=
  let near := (roundHalfEven q).toNat
  let low := q.floor.toNat
  let far := if near = low then low + 1 else low
  if hit near then some near else if hit far then some far else none

/-- The shortest grid with a hit, tried with `k` digits, `k + 1` digits and so on. -/
def shortestFrom (q : Rat) (target : Binary64) (point : Int) : Nat → Nat → Nat × Int
  | 0, k =>
    ((roundHalfEven (q * tenPow (k - point))).toNat, point - k)
  | more + 1, k =>
    let grid := point - (k : Int)
    match nearestHit (q * tenPow (-grid)) (fun n => nearest false ((n : Rat) * tenPow grid) == target) with
    | some n => (n, grid)
    | none => shortestFrom q target point more (k + 1)

def trim (n : Nat) (e : Int) : Nat × Int :=
  if h : n ≠ 0 ∧ n % 10 = 0 then trim (n / 10) (e + 1) else (n, e)
termination_by n
decreasing_by omega

/-- The fewest digits `n * 10 ^ e` that read back as the given positive magnitude. -/
def shortest (mantissa : Nat) (exponent : Int) : Nat × Int :=
  let q := (mantissa : Rat) * twoPow exponent
  let (n, e) := shortestFrom q (.finite false mantissa exponent) (pointOf q) 17 1
  trim n e

/-- How a decimal is laid out. The point stays positional while it lies in the range;
`wholePoint` keeps a zero after the point of a one digit mantissa. -/
structure Layout where
  lowest : Int
  highest : Int
  wholePoint : Bool

/-- Positional from `1e-4` up to `1e16`, a bare mantissa before an exponent. -/
def Layout.plain : Layout := ⟨-3, 16, false⟩

def Layout.pointed : Layout := ⟨-3, 15, true⟩

private def zeros (n : Nat) : String := String.ofList (List.replicate n '0')

private def exponentText (e : Int) : String :=
  let digits := toString e.natAbs
  (if e < 0 then "e-" else "e+") ++ (if digits.length < 2 then "0" ++ digits else digits)

def Layout.write (layout : Layout) (n : Nat) (e : Int) : String :=
  let digits := toString n
  let point : Int := e + (digits.length : Int)
  if layout.lowest ≤ point ∧ point ≤ layout.highest then
    if point ≤ 0 then "0." ++ zeros (-point).toNat ++ digits
    else if 0 ≤ e then digits ++ zeros e.toNat ++ ".0"
    else
      String.ofList (digits.toList.take point.toNat) ++ "." ++
        String.ofList (digits.toList.drop point.toNat)
  else
    let rest := String.ofList (digits.toList.drop 1)
    let fraction := if rest = "" then (if layout.wholePoint then ".0" else "") else "." ++ rest
    String.ofList (digits.toList.take 1) ++ fraction ++ exponentText (point - 1)

def text : Binary64 → String
  | .nan => "nan"
  | .infinite s => if s then "-inf" else "inf"
  | .finite s m e =>
    let body := if m = 0 then "0.0" else
      let (n, f) := shortest m e
      Layout.plain.write n f
    if s then "-" ++ body else body

/-- The number a decimal `n * 10 ^ e` reads as. Exponents far outside the format are settled
without building the power. -/
def ofDecimal (negative : Bool) (n : Nat) (e : Int) : Binary64 :=
  let size : Int := e + ((toString n).length : Int)
  if n = 0 then zero negative
  else if 400 < size then .infinite negative
  else if size < -400 then zero negative
  else nearest negative ((n : Rat) * tenPow e)

end DurableFlow.Binary64
