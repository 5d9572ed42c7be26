import TreeListing.Calendar
import TreeListing.Text.Digit
import TreeListing.Regex.Escape

/-!
Date formats. A format is a text with specifiers such as `%Y`; it means a list of fields, by which
an instant is rendered, and a regular expression by which a rendered date is recognised.
-/
namespace TreeListing

inductive Padding where
  | zeros
  | spaces
  | nothing
deriving DecidableEq

inductive NumericField where
  | year | century | yearOfCentury
  | isoYear | isoYearOfCentury
  | quarter | month | day | ordinal
  | sundayWeek | mondayWeek | isoWeek
  | sinceSunday | fromMonday
  | hour | hour12 | minute | second | nanosecond
  | stamp
deriving DecidableEq

/-- A field with one form. -/
inductive FixedField where
  | weekdayName | weekdayShort
  | monthName | monthShort
  | amPm (upper : Bool)
  /-- a point and as many digits as the nanoseconds need, in threes, or nothing -/
  | fraction
  /-- so many digits of the nanoseconds, behind a point or not -/
  | digits (point : Bool) (count : Nat)
  | zoneName
  /-- the offset from universal time, with colons and in three lengths -/
  | offset (colons : Nat)
  /-- the offset as a reader may find it, for which there is no one way of writing -/
  | offsetAny
  /-- date, time and offset as internet protocols write them -/
  | rfc3339
deriving DecidableEq

inductive DatePiece where
  | text (c : Char)
  | number (field : NumericField) (padding : Padding)
  | fixed (field : FixedField)
deriving DecidableEq

namespace DateFormat

open DatePiece NumericField FixedField Padding

private def clock : List DatePiece :=
  [number hour zeros, text ':', number minute zeros, text ':', number second zeros]

private def slashed : List DatePiece :=
  [number month zeros, text '/', number day zeros, text '/', number yearOfCentury zeros]

def specifier? : Char → Option (List DatePiece)
  | 'A' => some [fixed weekdayName]
  | 'B' => some [fixed monthName]
  | 'C' => some [number century zeros]
  | 'D' => some slashed
  | 'F' => some [number year zeros, text '-', number month zeros, text '-', number day zeros]
  | 'G' => some [number isoYear zeros]
  | 'H' => some [number hour zeros]
  | 'I' => some [number hour12 zeros]
  | 'M' => some [number minute zeros]
  | 'P' => some [fixed (amPm false)]
  | 'R' => some [number hour zeros, text ':', number minute zeros]
  | 'S' => some [number second zeros]
  | 'T' => some clock
  | 'U' => some [number sundayWeek zeros]
  | 'V' => some [number NumericField.isoWeek zeros]
  | 'W' => some [number mondayWeek zeros]
  | 'X' => some clock
  | 'Y' => some [number year zeros]
  | 'Z' => some [fixed zoneName]
  | 'a' => some [fixed weekdayShort]
  | 'b' => some [fixed monthShort]
  | 'c' => some ([fixed weekdayShort, text ' ', fixed monthShort, text ' ', number day spaces, text ' ']
      ++ clock ++ [text ' ', number year zeros])
  | 'd' => some [number day zeros]
  | 'e' => some [number day spaces]
  | 'f' => some [number nanosecond zeros]
  | 'g' => some [number isoYearOfCentury zeros]
  | 'h' => some [fixed monthShort]
  | 'j' => some [number ordinal zeros]
  | 'k' => some [number hour spaces]
  | 'l' => some [number hour12 spaces]
  | 'm' => some [number month zeros]
  | 'n' => some [text '\n']
  | 'p' => some [fixed (amPm true)]
  | 'q' => some [number quarter nothing]
  | 'r' => some ([number hour12 zeros, text ':', number minute zeros, text ':', number second zeros,
      text ' ', fixed (amPm true)])
  | 's' => some [number stamp nothing]
  | 't' => some [text '\t']
  | 'u' => some [number NumericField.fromMonday nothing]
  | 'v' => some [number day spaces, text '-', fixed monthShort, text '-', number year zeros]
  | 'w' => some [number sinceSunday nothing]
  | 'x' => some slashed
  | 'y' => some [number yearOfCentury zeros]
  | 'z' => some [fixed (offset 0)]
  | '+' => some [fixed rfc3339]
  | '%' => some [text '%']
  | _ => none

/-- The pieces of a specifier with a padding of its own, which only a single number can have. -/
def padded? (padding : Padding) (c : Char) : Option (List DatePiece) :=
  match specifier? c with
  | some [number field _] => some [number field padding]
  | _ => none

def digitCount? : Char → Option Nat
  | '3' => some 3
  | '6' => some 6
  | '9' => some 9
  | _ => none

/-- The pieces that a date format stands for; `none` when one of its specifiers stands for
nothing. -/
def parse? : List Char → Option (List DatePiece)
  | [] => some []
  | '%' :: ':' :: ':' :: ':' :: 'z' :: rest => (fixed (offset 3) :: ·) <$> parse? rest
  | '%' :: ':' :: ':' :: 'z' :: rest => (fixed (offset 2) :: ·) <$> parse? rest
  | '%' :: ':' :: 'z' :: rest => (fixed (offset 1) :: ·) <$> parse? rest
  | '%' :: '#' :: 'z' :: rest => (fixed offsetAny :: ·) <$> parse? rest
  | '%' :: '.' :: 'f' :: rest => (fixed fraction :: ·) <$> parse? rest
  | '%' :: '.' :: d :: 'f' :: rest => do
    let count ← digitCount? d
    (fixed (digits true count) :: ·) <$> parse? rest
  | '%' :: '-' :: c :: rest => do return (← padded? nothing c) ++ (← parse? rest)
  | '%' :: '_' :: c :: rest => do return (← padded? spaces c) ++ (← parse? rest)
  | '%' :: '0' :: c :: rest => do return (← padded? zeros c) ++ (← parse? rest)
  | '%' :: '3' :: 'f' :: rest => (fixed (digits false 3) :: ·) <$> parse? rest
  | '%' :: '6' :: 'f' :: rest => (fixed (digits false 6) :: ·) <$> parse? rest
  | '%' :: '9' :: 'f' :: rest => (fixed (digits false 9) :: ·) <$> parse? rest
  | ['%'] => none
  | '%' :: c :: rest => do return (← specifier? c) ++ (← parse? rest)
  | c :: rest => (text c :: ·) <$> parse? rest

def weekdayNames : List String :=
  ["Sunday", "Monday", "Tuesday", "Wednesday", "Thursday", "Friday", "Saturday"]

def monthNames : List String :=
  ["January", "February", "March", "April", "May", "June", "July", "August", "September", "October",
   "November", "December"]

def two (padding : Padding) (n : Nat) : List Char :=
  let ones := Char.ofNat (48 + n % 10)
  match n / 10, padding with
  | 0, .nothing => [ones]
  | 0, .spaces => [' ', ones]
  | tens, _ => [Char.ofNat (48 + tens), ones]

/-- A number filled up to its width; `signed` numbers have a plus sign and a place more. -/
def wide (width : Nat) (signed : Bool) (padding : Padding) (n : Int) : List Char :=
  let sign := if n < 0 then ['-'] else if signed then ['+'] else []
  let digits := Nat.toDigits 10 n.natAbs
  let gap := width + (if signed then 1 else 0) - (sign.length + digits.length)
  match padding with
  | .nothing => sign ++ digits
  | .zeros => sign ++ List.replicate gap '0' ++ digits
  | .spaces => List.replicate gap ' ' ++ sign ++ digits

/-- A year in four places, signed when they are not enough. -/
def yearText (padding : Padding) (year : Int) : List Char :=
  wide 4 (year < 0 || 9999 < year) padding year

/-- The last eight bits of the century, which is all that is written of it. -/
def centuryOf (year : Int) : Nat := (year.fdiv 100 % 256).toNat

def hour12Of (hour : Nat) : Nat := if hour % 12 = 0 then 12 else hour % 12

def renderNumber (m : Moment) (padding : Padding) : NumericField → List Char
  | .year => yearText padding m.day.year
  | .century => two padding (centuryOf m.day.year)
  | .yearOfCentury => two padding (m.day.year % 100).toNat
  | .isoYear => yearText padding m.day.isoWeek.1
  | .isoYearOfCentury => two padding (m.day.isoWeek.1 % 100).toNat
  | .quarter => Nat.toDigits 10 ((m.day.month + 2) / 3)
  | .month => two padding m.day.month
  | .day => two padding m.day.day
  | .ordinal => wide 3 false padding m.day.ordinal
  | .sundayWeek => two padding (m.day.weekFrom m.day.weekday)
  | .mondayWeek => two padding (m.day.weekFrom m.day.fromMonday)
  | .isoWeek => two padding m.day.isoWeek.2
  | .sinceSunday => Nat.toDigits 10 m.day.weekday
  | .fromMonday => Nat.toDigits 10 (m.day.fromMonday + 1)
  | .hour => two padding m.hour
  | .hour12 => two padding (hour12Of m.hour)
  | .minute => two padding m.minute
  | .second => two padding m.second
  | .nanosecond => wide 9 false padding m.nanos
  | .stamp => wide 9 false padding m.stamp

def nanoDigits (count nanos : Nat) : List Char := Text.padded count (nanos / Nat.pow 10 (9 - count))

def fractionText (nanos : Nat) : List Char :=
  if nanos = 0 then []
  else if nanos % 1000000 = 0 then '.' :: nanoDigits 3 nanos
  else if nanos % 1000 = 0 then '.' :: nanoDigits 6 nanos
  else '.' :: nanoDigits 9 nanos

def offsetText : (colons : Nat) → List Char
  | 0 => "+0000".toList
  | 1 => "+00:00".toList
  | 2 => "+00:00:00".toList
  | _ => "+00".toList

def renderFixed? (m : Moment) : FixedField → Option (List Char)
  | .weekdayName => some (weekdayNames.getD m.day.weekday "").toList
  | .weekdayShort => some ((weekdayNames.getD m.day.weekday "").toList.take 3)
  | .monthName => some (monthNames.getD (m.day.month - 1) "").toList
  | .monthShort => some ((monthNames.getD (m.day.month - 1) "").toList.take 3)
  | .amPm upper =>
    some (match upper, decide (m.hour < 12) with
      | true, true => ['A', 'M']
      | true, false => ['P', 'M']
      | false, true => ['a', 'm']
      | false, false => ['p', 'm'])
  | .fraction => some (fractionText m.nanos)
  | .digits point count => some ((if point then ['.'] else []) ++ nanoDigits count m.nanos)
  | .zoneName => some (offsetText 1)
  | .offset colons => some (offsetText colons)
  | .offsetAny => none
  | .rfc3339 => some (
      yearText .zeros m.day.year ++ ['-'] ++ two .zeros m.day.month ++ ['-'] ++ two .zeros m.day.day
        ++ ['T'] ++ two .zeros m.hour ++ [':'] ++ two .zeros m.minute ++ [':'] ++ two .zeros m.second
        ++ fractionText m.nanos ++ offsetText 1)

def renderPiece? (m : Moment) : DatePiece → Option (List Char)
  | .text c => some [c]
  | .number field padding => some (renderNumber m padding field)
  | .fixed field => renderFixed? m field

/-- The instant in the given format; `none` when the format stands for nothing or cannot be
written. -/
def render? (format : String) (t : Instant) : Option String := do
  let pieces ← parse? format.toList
  let texts ← pieces.mapM (renderPiece? t.moment)
  return String.ofList texts.flatten

/-- Every specifier of the format stands for something. -/
def isValid (format : String) : Bool := (parse? format.toList).isSome

def digitSpecifiers : List Char := "wdmyYHIMSfjUWuV".toList

/-- The regular expression, as a text, by which dates in the format are recognised: a specifier is a
run of digits or of anything, as short as may be, and other text is itself. -/
def recogniser : List Char → List Char
  | '%' :: '%' :: rest => '%' :: recogniser rest
  | '%' :: c :: rest =>
    (if digitSpecifiers.contains c then "\\d+?" else ".+?").toList ++ recogniser rest
  | ['%'] => ['%']
  | c :: rest => Regex.escape [c] ++ recogniser rest
  | [] => []

end DateFormat

end TreeListing
