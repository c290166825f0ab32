import RepoSearch.Text.Decimal
import RepoSearch.Time.Duration

/-!
# Timestamps

A timestamp is a moment of Coordinated Universal Time, counted in seconds from the beginning of 1970, with nanoseconds.
A leap second is written as nanoseconds from one second on, and only the last second of a minute can have one. Years run
from -262143 to 262142 of the proleptic Gregorian calendar.
-/

namespace RepoSearch

/-- A moment of time. -/
structure Timestamp where
  secs : Int
  nanos : Nat
  deriving DecidableEq, Repr

namespace Timestamp

/-- The order of time. A leap second comes before the second that follows it. -/
instance : LE Timestamp := ⟨fun a b => a.secs < b.secs ∨ a.secs = b.secs ∧ a.nanos ≤ b.nanos⟩

instance (a b : Timestamp) : Decidable (a ≤ b) :=
  inferInstanceAs (Decidable (a.secs < b.secs ∨ a.secs = b.secs ∧ a.nanos ≤ b.nanos))

/-- The first second of the year -262143. -/
def minSecs : Int := -8334601228800

/-- The last second of the year 262142. -/
def maxSecs : Int := 8210266876799

/-- The timestamp for seconds and nanoseconds, if there is one. -/
def ofUnix? (secs : Int) (nanos : Nat) : Option Timestamp :=
  if minSecs ≤ secs ∧ secs ≤ maxSecs ∧
      (nanos < 1000000000 ∨ (nanos < 2000000000 ∧ secs % 60 = 59)) then
    some ⟨secs, nanos⟩
  else none

/-- The time from 1970 in nanoseconds. -/
def totalNanos (t : Timestamp) : Int := t.secs * 1000000000 + t.nanos

/-- The moment a span after `t`, if the calendar reaches that far. -/
def add? (t : Timestamp) (d : Duration) : Option Timestamp :=
  let total := t.totalNanos + d.nanos
  ofUnix? (total / 1000000000) (total % 1000000000).toNat

/-! ### The calendar -/

/-- Year, month and day of a day counted from 1970-01-01. Years are counted from March, in eras of 400 years. -/
def civil (day : Int) : Int × Nat × Nat :=
  let z := day + 719468
  let era := z / 146097
  let doe := (z % 146097).toNat
  let yoe := (doe - doe / 1460 + doe / 36524 - doe / 146096) / 365
  let doy := doe - (365 * yoe + yoe / 4 - yoe / 100)
  let mp := (5 * doy + 2) / 153
  let d := doy - (153 * mp + 2) / 5 + 1
  let m := if mp < 10 then mp + 3 else mp - 9
  (era * 400 + yoe + (if m ≤ 2 then 1 else 0), m, d)

def date (t : Timestamp) : Int × Nat × Nat := civil (t.secs / 86400)

/-- The second of the day. -/
def secOfDay (t : Timestamp) : Nat := (t.secs % 86400).toNat

/-! ### Times between moments -/

def isLeap (t : Timestamp) : Bool := 1000000000 ≤ t.nanos

/-- The time from `now` to `t` in nanoseconds. A leap second counts beside the others if the time of day of its moment
is the earlier one. -/
def nanosFrom (t now : Timestamp) : Int :=
  let plain := t.totalNanos - now.totalNanos
  if now.secOfDay < t.secOfDay ∧ now.isLeap then plain + 1000000000
  else if t.secOfDay < now.secOfDay ∧ t.isLeap then plain - 1000000000
  else plain

/-- The whole seconds from `now` to `t`, none if `t` is past. -/
def secsFrom (t now : Timestamp) : Nat := (t.nanosFrom now).toNat / 1000000000

/-! ### Texts -/

/-- A numeral with zeros in front up to the given width. -/
def padded (width n : Nat) : String :=
  let digits := (Decimal.render n).toList
  String.ofList (List.replicate (width - digits.length) '0' ++ digits)

/-- The time of day. The second of a leap second is 60. -/
def clockText (t : Timestamp) : String :=
  let s := t.secOfDay
  let sec := s % 60 + (if 1000000000 ≤ t.nanos then 1 else 0)
  padded 2 (s / 3600) ++ ":" ++ padded 2 (s / 60 % 60) ++ ":" ++ padded 2 sec

/-- Four digits for the years 0 to 9999; a sign and at least four digits for all others. -/
def yearText (y : Int) : String :=
  if 0 ≤ y ∧ y ≤ 9999 then padded 4 y.toNat
  else (if y < 0 then "-" else "+") ++ padded 4 y.natAbs

/-- The fraction of a second with 0, 3, 6 or 9 digits, the fewest that are exact. -/
def fractionText (t : Timestamp) : String :=
  let n := t.nanos % 1000000000
  if n = 0 then ""
  else if n % 1000000 = 0 then "." ++ padded 3 (n / 1000000)
  else if n % 1000 = 0 then "." ++ padded 6 (n / 1000)
  else "." ++ padded 9 n

/-- The RFC 3339 form. -/
def render (t : Timestamp) : String :=
  let (y, m, d) := t.date
  yearText y ++ "-" ++ padded 2 m ++ "-" ++ padded 2 d ++ "T" ++ t.clockText ++ t.fractionText ++ "Z"

end Timestamp

end RepoSearch
