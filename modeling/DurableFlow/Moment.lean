/-! Points in time, in whole microseconds since 1970, with or without a time zone. -/
namespace DurableFlow

/-- A time zone. The offset of a region from UTC, in microseconds, changes over the year, so a
moment told in a region carries the offset that its clock has then. -/
inductive Zone where
  | utc
  | region (name : String) (offset : Int)
  deriving DecidableEq, Repr, Inhabited

def Zone.offset : Zone → Int
  | .utc => 0
  | .region _ offset => offset

/-- A point in time. With a zone it counts from 1970 in UTC; one without is a clock's reading
alone, and cannot be compared with a zoned one. -/
structure Moment where
  micros : Int
  zone : Option Zone
  deriving DecidableEq, Repr, Inhabited

namespace Moment

def utc (micros : Int) : Moment := ⟨micros, some .utc⟩

def zoned (m : Moment) : Bool := m.zone.isSome

def offset (m : Moment) : Int := (m.zone.map Zone.offset).getD 0

def clock (m : Moment) : Int := m.micros + m.offset

def sharesRegion (a b : Moment) : Bool :=
  match a.zone, b.zone with
  | some (.region x _), some (.region y _) => x = y
  | _, _ => false

/-- Whether the first moment counts as earlier. Two of one region are compared by what its clocks
show, even where the clocks were set back in between. -/
def isBefore (a b : Moment) : Bool :=
  if a.sharesRegion b then a.clock < b.clock else a.micros < b.micros

def isDated (m : Moment) : Bool := -62135596800000000 ≤ m.micros && m.micros ≤ 253402300799999999

/-- Whether the first moment is not later than the second; none when only one has a zone. -/
def notAfter? (a b : Moment) : Option Bool :=
  if a.zoned = b.zoned then some (!b.isBefore a) else none

/-- Whether the first moment is earlier; none when only one has a zone. -/
def before? (a b : Moment) : Option Bool :=
  if a.zoned = b.zoned then some (a.isBefore b) else none

/-- Whole milliseconds, rounded down; a moment without a zone is read as UTC. -/
def millis (m : Moment) : Int := Int.fdiv m.micros 1000

/-- The UTC moment of a count of milliseconds, whether or not a calendar can show it. -/
def ofMillis (ms : Int) : Moment := utc (ms * 1000)

def cutToMillis (m : Moment) : Moment := { m with micros := m.micros - Int.fmod m.micros 1000 }

/-- Year, month and day of a count of days since 1970, in the proleptic Gregorian calendar. -/
def civil (days : Int) : Int × Int × Int :=
  let z := days + 719468
  let era := Int.fdiv z 146097
  let doe := z - era * 146097
  let yoe := (doe - doe / 1460 + doe / 36524 - doe / 146096) / 365
  let doy := doe - (365 * yoe + yoe / 4 - yoe / 100)
  let mp := (5 * doy + 2) / 153
  let d := doy - (153 * mp + 2) / 5 + 1
  let m := if mp < 10 then mp + 3 else mp - 9
  let y := yoe + era * 400
  (if m ≤ 2 then y + 1 else y, m, d)

def padded (width : Nat) (n : Int) : String :=
  let digits := toString n.natAbs
  String.ofList (List.replicate (width - digits.length) '0') ++ digits

/-- Hours and minutes of an offset, and what is left of it when it is no whole number of minutes. -/
def offsetText (offset : Int) : String :=
  let size : Int := offset.natAbs
  let second := size / 1000000
  let micro := size % 1000000
  (if offset < 0 then "-" else "+") ++ padded 2 (second / 3600) ++ ":" ++
    padded 2 (second / 60 % 60) ++
    (if size % 60000000 = 0 then "" else ":" ++ padded 2 (second % 60)) ++
    (if micro = 0 then "" else "." ++ padded 6 micro)

/-- The ISO text, by the clock of the moment's zone: microseconds only when there are any, the
offset only with a zone. -/
def isoText (m : Moment) : String :=
  let second := Int.fdiv m.clock 1000000
  let micro := Int.fmod m.clock 1000000
  let day := Int.fdiv second 86400
  let time := Int.fmod second 86400
  let (y, mo, d) := civil day
  padded 4 y ++ "-" ++ padded 2 mo ++ "-" ++ padded 2 d ++ "T" ++
    padded 2 (time / 3600) ++ ":" ++ padded 2 (time / 60 % 60) ++ ":" ++ padded 2 (time % 60) ++
    (if micro = 0 then "" else "." ++ padded 6 micro) ++
    (m.zone.map fun z => offsetText z.offset).getD ""

end Moment
end DurableFlow
