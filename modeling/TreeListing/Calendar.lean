/-!
Instants, and the day and time of day that they are in universal time.
-/
namespace TreeListing

/-- An instant: whole seconds since 1970, rounded down, and the nanoseconds above them. -/
structure Instant where
  seconds : Int
  nanos : Nat := 0
deriving DecidableEq, Inhabited

namespace Instant

def le (a b : Instant) : Bool :=
  a.seconds < b.seconds || (a.seconds = b.seconds && a.nanos ≤ b.nanos)

def latest (a b : Instant) : Instant := if a.le b then b else a

end Instant

structure Day where
  year : Int
  month : Nat
  day : Nat
  /-- number of the day in its year, from one -/
  ordinal : Nat
  /-- days since Sunday -/
  weekday : Nat
deriving DecidableEq

namespace Day

def isLeap (year : Int) : Bool := year % 4 = 0 && (year % 100 ≠ 0 || year % 400 = 0)

/-- The number of days before the first of March of the year 0 up to 1970. -/
def marchShift : Int := 719468

/-- The day with the given number since the first of January 1970. Years are counted from March, so
that the leap day is the last of its year. -/
def ofNumber (n : Int) : Day :=
  let shifted := n + marchShift
  let era := shifted.fdiv 146097
  let dayOfEra := (shifted.fmod 146097).toNat
  let yearOfEra := (dayOfEra - dayOfEra / 1460 + dayOfEra / 36524 - dayOfEra / 146096) / 365
  let dayOfYear := dayOfEra - (365 * yearOfEra + yearOfEra / 4 - yearOfEra / 100)
  let fromMarch := (5 * dayOfYear + 2) / 153
  let day := dayOfYear - (153 * fromMarch + 2) / 5 + 1
  let month := if fromMarch < 10 then fromMarch + 3 else fromMarch - 9
  let year := (yearOfEra : Int) + era * 400 + (if month ≤ 2 then 1 else 0)
  let ordinal :=
    if month ≤ 2 then dayOfYear + 1 - 306
    else dayOfYear + 1 + 59 + (if isLeap year then 1 else 0)
  { year, month, day, ordinal, weekday := ((n + 4).fmod 7).toNat }

def fromMonday (d : Day) : Nat := (d.weekday + 6) % 7

/-- The week of the year, where weeks begin on the day so many days before this one; the days before
the first such day are week zero. -/
def weekFrom (d : Day) (sinceFirst : Nat) : Nat := (d.ordinal + 6 - sinceFirst) / 7

def weeksOf (year : Int) : Nat :=
  let last (y : Int) : Int := (y + y.fdiv 4 - y.fdiv 100 + y.fdiv 400).fmod 7
  if last year = 4 ∨ last (year - 1) = 3 then 53 else 52

/-- The year and the week of the day, where a week belongs to the year of its Thursday. -/
def isoWeek (d : Day) : Int × Nat :=
  let week := (d.ordinal + 9 - d.fromMonday) / 7
  if week = 0 then (d.year - 1, weeksOf (d.year - 1))
  else if weeksOf d.year < week then (d.year + 1, 1)
  else (d.year, week)

end Day

structure Moment where
  day : Day
  hour : Nat
  minute : Nat
  second : Nat
  nanos : Nat
  stamp : Int
deriving DecidableEq

def Instant.moment (t : Instant) : Moment :=
  let ofDay := (t.seconds.fmod 86400).toNat
  { day := Day.ofNumber (t.seconds.fdiv 86400)
    hour := ofDay / 3600
    minute := ofDay / 60 % 60
    second := ofDay % 60
    nanos := t.nanos
    stamp := t.seconds }

end TreeListing
