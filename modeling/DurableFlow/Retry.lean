import DurableFlow.Failure

/-! Numbers that are integers or binary64 numbers, and the retry policy built on them: how many
tries a lost race gets, and how long to wait between two of them. -/
namespace DurableFlow

/-- A number as a setting gives it. A truth value counts as zero or one and keeps its own text. -/
inductive Amount where
  | flag (b : Bool)
  | int (n : Int)
  | double (d : Binary64)
  deriving DecidableEq, Repr

namespace Amount

def ofJson : Json → Except Failure Amount
  | .bool b => .ok (.flag b)
  | .int n => .ok (.int n)
  | .double d => .ok (.double d)
  | _ => .error .notAnAmount

def toJson : Amount → Json
  | .flag b => .bool b
  | .int n => .int n
  | .double d => .double d

def whole? : Amount → Option Int
  | .flag b => some (if b then 1 else 0)
  | .int n => some n
  | .double _ => none

def place? (a : Amount) : Option Binary64.Place := a.toJson.place?

def lt (a b : Amount) : Bool :=
  match a.place?, b.place? with
  | some p, some q => p.lt q
  | _, _ => false

def atLeast (a b : Amount) : Bool :=
  match a.place?, b.place? with
  | some p, some q => !p.lt q
  | _, _ => false

def notPositive (a : Amount) : Bool := (Amount.int 0).atLeast a

def text : Amount → String
  | .flag b => if b then "True" else "False"
  | .int n => toString n
  | .double d => d.text

def doubleOf (n : Int) : Except Failure Binary64 :=
  match Binary64.ofInt? n with
  | some d => .ok d
  | none => .error (.tooLarge .double)

def toDouble : Amount → Except Failure Binary64
  | .flag b => doubleOf (if b then 1 else 0)
  | .int n => doubleOf n
  | .double d => .ok d

def add (a b : Amount) : Except Failure Amount :=
  match a.whole?, b.whole? with
  | some m, some n => .ok (.int (m + n))
  | _, _ => do return .double ((← a.toDouble).add (← b.toDouble))

def mul (a b : Amount) : Except Failure Amount :=
  match a.whole?, b.whole? with
  | some m, some n => .ok (.int (m * n))
  | _, _ => do return .double ((← a.toDouble).mul (← b.toDouble))

def pred : Amount → Amount
  | .flag b => .int (if b then 0 else -1)
  | .int n => .int (n - 1)
  | .double d => .double (d.add (Binary64.nearest true 1))

/-- A power of an integer. Only a base beyond one in size makes it grow. -/
def wholePower (base : Int) (n : Nat) : Int :=
  if base.natAbs ≤ 1 then (if n = 0 then 1 else if n % 2 = 0 then base * base else base)
  else
    let size : Int := (base.natAbs.pow n : Nat)
    if base < 0 ∧ n % 2 = 1 then -size else size

/-- An integer power of a binary64 number. The exponent is rounded to a binary64 number before. -/
def doublePower (base : Binary64) (n : Int) : Except Failure Amount := do
  let exponent ← doubleOf n
  match base.pow ((exponent.value?.getD 0).floor) with
  | .number d => return .double d
  | .tooLarge => throw (.tooLarge .power)
  | .zeroDivision => throw .zeroDivision

/-- An integer power; exact for an integer base and an exponent that is not negative. -/
def pow (base : Amount) (n : Int) : Except Failure Amount := do
  match base.whole? with
  | some b => if 0 ≤ n then return .int (wholePower b n.toNat)
  | none => pure ()
  doublePower (← base.toDouble) n

def min (a b : Amount) : Amount := if b.lt a then b else a

def max (a b : Amount) : Amount := if a.lt b then b else a

def truncate : Amount → Except Failure Int
  | .flag b => .ok (if b then 1 else 0)
  | .int n => .ok n
  | .double d =>
    match d with
    | .nan => .error .notANumber
    | .infinite _ => .error (.tooLarge .infinity)
    | .finite s m e =>
      let size := (((m : Rat) * Binary64.twoPow e).floor)
      .ok (if s then -size else size)

/-- The integer nearest to a binary64 number, a half going to the even neighbour. -/
def nearestInteger (d : Binary64) : Except Failure Int :=
  match d.value? with
  | some q => .ok (Binary64.roundHalfEven q)
  | none => if d = .nan then .error .notANumber else .error (.tooLarge .infinity)

end Amount

/-- How an input is retried after a lost race. The multiplier is looked at only when a delay is
asked for. -/
structure RetryPolicy where
  maxAttempts : Amount
  initialDelay : Amount
  maxDelay : Amount
  multiplier : Json
  deriving DecidableEq

namespace RetryPolicy

/-- The delay after the first try, in milliseconds, unless another is chosen. -/
def usualInitialDelay : Amount := .int 5

def usualMaxDelay : Amount := .int 200

/-- What each delay is of the one before it, unless another is chosen: twice. -/
def usualMultiplier : Json := .double (Binary64.nearest false 2)

/-- The policy of given values. Refuses one without a try, or with a negative delay; the first
value at fault is the one refused. -/
def ofValues (maxAttempts initialDelay maxDelay multiplier : Json) :
    Except Failure RetryPolicy := do
  let attempts ← Amount.ofJson maxAttempts
  if attempts.lt (.int 1) then throw (.tooFewAttempts attempts.text)
  let first ← Amount.ofJson initialDelay
  if first.lt (.int 0) then throw .negativeDelay
  let longest ← Amount.ofJson maxDelay
  if longest.lt (.int 0) then throw .negativeDelay
  return ⟨attempts, first, longest, multiplier⟩

def withMaxAttempts (n : Json) : Except Failure RetryPolicy :=
  ofValues n usualInitialDelay.toJson usualMaxDelay.toJson usualMultiplier

def standard : RetryPolicy := ⟨.int 3, usualInitialDelay, usualMaxDelay, usualMultiplier⟩

def noRetry : RetryPolicy := ⟨.int 1, .int 0, .int 0, usualMultiplier⟩

def contended : RetryPolicy :=
  ⟨.int 8, .int 2, .int 100, .double (Binary64.nearest false (mkRat 3 2))⟩

/-- Milliseconds to wait after a try that lost its race, none after the last one. -/
def delayAfter (p : RetryPolicy) (attempt : Int) : Except Failure (Option Int) :=
  if (Amount.int attempt).atLeast p.maxAttempts then .ok none
  else do
    let growth ← (← Amount.ofJson p.multiplier).pow (attempt - 1)
    let delay ← p.initialDelay.mul growth
    return some (← (delay.min p.maxDelay).truncate)

def retries (p : RetryPolicy) : Amount := p.maxAttempts.pred

def tries? (p : RetryPolicy) : Option Nat :=
  match p.maxAttempts.place? with
  | some (.exactly q) => some q.ceil.toNat
  | _ => none

end RetryPolicy
end DurableFlow
