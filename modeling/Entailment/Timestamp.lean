import Entailment.Text.Blank

/-! Points in time as they are written in state files: date, time of day and
offset from UTC, in the form of RFC 3339. Reading is lenient about blanks and
about leading zeros. -/
namespace Entailment

/-- Date and time of day at an offset of `offset` minutes from UTC. A leap second
is the second 60. -/
structure Timestamp where
  year : Int
  month : Nat
  day : Nat
  hour : Nat
  minute : Nat
  second : Nat
  nanosecond : Nat
  offset : Int
deriving DecidableEq, Inhabited, Repr

namespace Timestamp

def isLeapYear (year : Int) : Bool :=
  year % 4 == 0 && (year % 100 != 0 || year % 400 == 0)

def daysInMonth (year : Int) (month : Nat) : Nat :=
  match month with
  | 2 => if isLeapYear year then 29 else 28
  | 4 | 6 | 9 | 11 => 30
  | _ => 31

/-- The years that are told apart. -/
def minYear : Int := -262143

def maxYear : Int := 262142

/-- Minutes from the start of the day to the time in UTC, which may fall on the day
before or after. -/
def minuteInUtc (t : Timestamp) : Int := t.hour * 60 + t.minute - t.offset

/-- Whether the date in UTC leaves the years that are told apart. -/
def leavesRange (t : Timestamp) : Bool :=
  (t.year == minYear && t.month == 1 && t.day == 1 && t.minuteInUtc < 0) ||
  (t.year == maxYear && t.month == 12 && t.day == 31 && 24 * 60 ≤ t.minuteInUtc)

def isValid (t : Timestamp) : Bool :=
  minYear ≤ t.year && t.year ≤ maxYear &&
  1 ≤ t.month && t.month ≤ 12 &&
  1 ≤ t.day && t.day ≤ daysInMonth t.year t.month &&
  t.hour ≤ 23 && t.minute ≤ 59 && t.second ≤ 60 &&
  t.nanosecond < 1000000000 &&
  t.offset.natAbs < 24 * 60 && !t.leavesRange

/-- Days are counted from the first of March, so that the leap day ends a year, in
eras of 400 years. -/
def daysPerEra : Nat := 146097

/-- Days from the start of the first era, the year 0, to the start of 1970. -/
def daysBefore1970 : Nat := 719468

/-- The time in UTC so many seconds and nanoseconds after the start of 1970. -/
def ofEpoch (seconds nanosecond : Nat) : Timestamp :=
  let days := seconds / 86400 + daysBefore1970
  let rest := seconds % 86400
  let era := days / daysPerEra
  let dayOfEra := days % daysPerEra
  let yearOfEra := (dayOfEra - dayOfEra / 1460 + dayOfEra / 36524 - dayOfEra / 146096) / 365
  let dayOfYear := dayOfEra - (365 * yearOfEra + yearOfEra / 4 - yearOfEra / 100)
  let monthFromMarch := (5 * dayOfYear + 2) / 153
  let day := dayOfYear - (153 * monthFromMarch + 2) / 5 + 1
  let month := if monthFromMarch < 10 then monthFromMarch + 3 else monthFromMarch - 9
  let year := era * 400 + yearOfEra + if month ≤ 2 then 1 else 0
  ⟨year, month, day, rest / 3600, rest / 60 % 60, rest % 60, nanosecond, 0⟩

/-- A number with zeros in front up to a width. -/
def padded (width n : Nat) : String :=
  let digits := toString n
  String.ofList (List.replicate (width - digits.length) '0') ++ digits

/-- Nothing, or a point and as many groups of three digits as are needed. -/
def renderFraction (nanosecond : Nat) : String :=
  if nanosecond = 0 then ""
  else if nanosecond % 1000000 = 0 then "." ++ padded 3 (nanosecond / 1000000)
  else if nanosecond % 1000 = 0 then "." ++ padded 6 (nanosecond / 1000)
  else "." ++ padded 9 nanosecond

/-- A year outside of four digits has a sign. -/
def renderYear (year : Int) : String :=
  if 0 ≤ year ∧ year ≤ 9999 then padded 4 year.natAbs
  else (if year < 0 then "-" else "+") ++ padded 4 year.natAbs

def renderOffset (offset : Int) : String :=
  if offset = 0 then "Z"
  else
    (if offset < 0 then "-" else "+") ++ padded 2 (offset.natAbs / 60) ++ ":" ++
      padded 2 (offset.natAbs % 60)

def render (t : Timestamp) : String :=
  renderYear t.year ++ "-" ++ padded 2 t.month ++ "-" ++ padded 2 t.day ++ "T" ++
    padded 2 t.hour ++ ":" ++ padded 2 t.minute ++ ":" ++ padded 2 t.second ++
    renderFraction t.nanosecond ++ renderOffset t.offset

/-- The number that digits spell. -/
def digitsValue (digits : List Char) : Nat := digits.foldl (fun n c => n * 10 + (c.toNat - 48)) 0

/-- A number of one to `most` digits. -/
def readNumber (most : Nat) (cs : List Char) : Option (Nat × List Char) :=
  let digits := (cs.take most).takeWhile Char.isDigit
  if digits.isEmpty then none else some (digitsValue digits, cs.drop digits.length)

/-- Blanks, then a number of one or two digits. -/
def readField (cs : List Char) : Option (Nat × List Char) := readNumber 2 (Text.trimLeft cs)

/-- Blanks, then a year of up to four digits, or of any number of them after a sign. -/
def readYear (cs : List Char) : Option (Int × List Char) :=
  match Text.trimLeft cs with
  | '-' :: cs => (readNumber cs.length cs).map fun (n, rest) => (-n, rest)
  | '+' :: cs => (readNumber cs.length cs).map fun (n, rest) => (n, rest)
  | cs => (readNumber 4 cs).map fun (n, rest) => (n, rest)

/-- Blanks, then the given character. -/
def skipMark (mark : Char) (cs : List Char) : Option (List Char) :=
  match Text.trimLeft cs with
  | c :: rest => if c = mark then some rest else none
  | [] => none

/-- The sign between date and time. -/
def skipDivider : List Char → Option (List Char)
  | 'T' :: cs => some cs
  | 't' :: cs => some cs
  | ' ' :: cs => some cs
  | _ => none

/-- A fraction of a second in nanoseconds. Further digits are dropped. -/
def readFraction : List Char → Option (Nat × List Char)
  | '.' :: cs =>
    let digits := cs.takeWhile Char.isDigit
    let kept := digits.take 9
    if digits.isEmpty then none
    else some (digitsValue kept * Nat.pow 10 (9 - kept.length), cs.drop digits.length)
  | cs => some (0, cs)

/-- Two digits for hours and two for minutes, with colons and blanks between them. -/
def readHoursMinutes : List Char → Option (Nat × List Char)
  | a :: b :: cs =>
    match cs.dropWhile fun c => c == ':' || Text.isBlank c with
    | c :: d :: rest =>
      if [a, b, c, d].all Char.isDigit && c < '6' then
        some (digitsValue [a, b] * 60 + digitsValue [c, d], rest)
      else none
    | _ => none
  | _ => none

/-- The offset in minutes: a word or letter for UTC, or a sign with hours and minutes. -/
def readOffset (cs : List Char) : Option (Int × List Char) :=
  if (cs.take 3).map Char.toUpper = ['U', 'T', 'C'] then some (0, cs.drop 3)
  else
    match cs with
    | 'Z' :: rest => some (0, rest)
    | 'z' :: rest => some (0, rest)
    | '+' :: rest => (readHoursMinutes rest).map fun (n, rest) => (n, rest)
    | '-' :: rest => (readHoursMinutes rest).map fun (n, rest) => (-n, rest)
    | '−' :: rest => (readHoursMinutes rest).map fun (n, rest) => (-n, rest)
    | _ => none

def parse (text : String) : Option Timestamp := do
  let (year, cs) ← readYear text.toList
  let (month, cs) ← readField (← skipMark '-' cs)
  let (day, cs) ← readField (← skipMark '-' cs)
  let (hour, cs) ← readField (← skipDivider cs)
  let (minute, cs) ← readField (← skipMark ':' cs)
  let (second, cs) ← readField (← skipMark ':' cs)
  let (nanosecond, cs) ← readFraction cs
  let (offset, cs) ← readOffset (Text.trimLeft cs)
  let t : Timestamp := ⟨year, month, day, hour, minute, second, nanosecond, offset⟩
  if t.isValid && (Text.trimLeft cs).isEmpty then some t else none

end Timestamp

end Entailment
