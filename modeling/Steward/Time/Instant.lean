import Steward.Text.Basic
import Steward.Time.Span
/-!
Moments of universal time, exact to the nanosecond, with the dated form `2024-01-01T00:00:00Z`.

Reading is lenient: leading zeros and white space around the parts of the date are optional, the
date and the time of day may be parted by a blank, and any offset from universal time is allowed.
Writing is strict: universal time, and no, three, six or nine digits of a second.
-/
namespace Steward

/-- A moment: whole seconds from the start of 1970, and nanoseconds. The nanoseconds reach a
second or more only inside a leap second. -/
structure Instant where
  seconds : Int
  nanos : Nat
  deriving DecidableEq, Repr

namespace Instant

instance : Inhabited Instant := ⟨⟨0, 0⟩⟩

def secondsPerDay : Int := 86400

/-- Days from the start of 1970 to a date of the Gregorian calendar, years counted from March. -/
def dayNumber (year : Int) (month day : Nat) : Int :=
  let y := if month ≤ 2 then year - 1 else year
  let era := Int.fdiv y 400
  let yearOfEra := y - era * 400
  let shifted : Int := if month ≤ 2 then month + 9 else month - 3
  let dayOfYear := (153 * shifted + 2) / 5 + day - 1
  let dayOfEra := yearOfEra * 365 + yearOfEra / 4 - yearOfEra / 100 + dayOfYear
  era * 146097 + dayOfEra - 719468

def dateOf (days : Int) : Int × Nat × Nat :=
  let z := days + 719468
  let era := Int.fdiv z 146097
  let dayOfEra := z - era * 146097
  let yearOfEra := (dayOfEra - dayOfEra / 1460 + dayOfEra / 36524 - dayOfEra / 146096) / 365
  let dayOfYear := dayOfEra - (365 * yearOfEra + yearOfEra / 4 - yearOfEra / 100)
  let shifted := (5 * dayOfYear + 2) / 153
  let day := dayOfYear - (153 * shifted + 2) / 5 + 1
  let month := if shifted < 10 then shifted + 3 else shifted - 9
  let year := yearOfEra + era * 400
  (if month ≤ 2 then year + 1 else year, month.toNat, day.toNat)

def isLeapYear (year : Int) : Bool :=
  year % 4 == 0 && (year % 100 != 0 || year % 400 == 0)

def daysInMonth (year : Int) (month : Nat) : Nat :=
  match month with
  | 2 => if isLeapYear year then 29 else 28
  | 4 | 6 | 9 | 11 => 30
  | _ => 31

def isRepresentable (year : Int) : Bool := -262143 ≤ year && year ≤ 262142

def digits? (limit : Nat) (s : List Char) : Option (Nat × List Char) :=
  let run := (s.take limit).takeWhile Text.isDigit
  if run.isEmpty then none else some (Text.valueOf run, s.drop run.length)

/-- A number of up to `limit` digits after optional white space, within bounds. -/
def part? (limit low high : Nat) (s : List Char) : Option (Nat × List Char) := do
  let (n, rest) ← digits? limit (Text.trimStart s)
  if low ≤ n && n ≤ high then some (n, rest) else none

def year? (s : List Char) : Option (Int × List Char) :=
  match Text.trimStart s with
  | '-' :: rest => (digits? rest.length rest).map fun (n, r) => (-(n : Int), r)
  | '+' :: rest => (digits? rest.length rest).map fun (n, r) => ((n : Int), r)
  | rest => (digits? 4 rest).map fun (n, r) => ((n : Int), r)

def mark? (c : Char) (s : List Char) : Option (List Char) :=
  match Text.trimStart s with
  | d :: rest => if d = c then some rest else none
  | [] => none

/-- The nanoseconds of an optional fraction; digits after the ninth are dropped. -/
def fraction? (s : List Char) : Option (Nat × List Char) :=
  match s with
  | '.' :: rest => do
    let (n, r) ← digits? 9 rest
    let read := rest.length - r.length
    some (n * Nat.pow 10 (9 - read), r.dropWhile Text.isDigit)
  | _ => some (0, s)

def hoursMinutes? (s : List Char) : Option (Int × List Char) :=
  match s with
  | h1 :: h2 :: rest =>
    if Text.isDigit h1 && Text.isDigit h2 then
      let hours := Text.valueOf [h1, h2]
      match rest.dropWhile fun c => c == ':' || Text.isBlank c with
      | m1 :: m2 :: rest =>
        if Text.isDigit m1 && Text.isDigit m2 && m1 ≤ '5' then
          some ((hours * 3600 + Text.valueOf [m1, m2] * 60 : Nat), rest)
        else none
      | _ => none
    else none
  | _ => none

def offset? (s : List Char) : Option (Int × List Char) :=
  match s with
  | 'Z' :: rest | 'z' :: rest => some (0, rest)
  | '+' :: rest => hoursMinutes? rest
  | '-' :: rest | '−' :: rest => (hoursMinutes? rest).map fun (n, r) => (-n, r)
  | u :: t :: c :: rest =>
    if [u, t, c].map Char.toUpper = ['U', 'T', 'C'] then some (0, rest) else none
  | _ => none

def read? (text : List Char) : Option Instant := do
  let (year, s) ← year? text
  let s ← mark? '-' s
  let (month, s) ← part? 2 1 12 s
  let s ← mark? '-' s
  let (day, s) ← part? 2 1 31 s
  let s ← match s with
    | 't' :: rest | 'T' :: rest | ' ' :: rest => some rest
    | _ => none
  let (hour, s) ← part? 2 0 23 s
  let s ← mark? ':' s
  let (minute, s) ← part? 2 0 59 s
  let s ← mark? ':' s
  let (second, s) ← part? 2 0 60 s
  let (nanos, s) ← fraction? s
  let (offset, s) ← offset? (Text.trimStart s)
  guard (Text.trimStart s).isEmpty
  guard (isRepresentable year && day ≤ daysInMonth year month)
  guard (-secondsPerDay < offset && offset < secondsPerDay)
  let (second, nanos) := if second = 60 then (59, nanos + nanosPerSecond) else (second, nanos)
  let seconds := dayNumber year month day * secondsPerDay
    + hour * 3600 + minute * 60 + second - offset
  guard (isRepresentable (dateOf (Int.fdiv seconds secondsPerDay)).1)
  some ⟨seconds, nanos⟩

def yearText (year : Int) : List Char :=
  if 0 ≤ year && year ≤ 9999 then Text.padded 4 year.toNat
  else (if year < 0 then '-' else '+') :: Text.padded 4 year.natAbs

def fractionText (nanos : Nat) : List Char :=
  if nanos = 0 then []
  else if nanos % 1000000 = 0 then '.' :: Text.padded 3 (nanos / 1000000)
  else if nanos % 1000 = 0 then '.' :: Text.padded 6 (nanos / 1000)
  else '.' :: Text.padded 9 nanos

def text (t : Instant) : String :=
  let days := Int.fdiv t.seconds secondsPerDay
  let time := (t.seconds - days * secondsPerDay).toNat
  let (year, month, day) := dateOf days
  let leap := nanosPerSecond ≤ t.nanos
  let second := time % 60 + if leap then 1 else 0
  let nanos := if leap then t.nanos - nanosPerSecond else t.nanos
  String.ofList (yearText year ++ '-' :: Text.padded 2 month ++ '-' :: Text.padded 2 day
    ++ 'T' :: Text.padded 2 (time / 3600) ++ ':' :: Text.padded 2 (time / 60 % 60)
    ++ ':' :: Text.padded 2 second ++ fractionText nanos ++ ['Z'])

def secondOfDay (t : Instant) : Int :=
  t.seconds - Int.fdiv t.seconds secondsPerDay * secondsPerDay

/-- Whether a moment lies inside a leap second. -/
def inLeapSecond (t : Instant) : Bool := nanosPerSecond ≤ t.nanos

/-- Nanoseconds from `earlier` to `later`. Inside one and the same day-time order, a leap second
that the earlier clock reading has begun is counted once. -/
def nanosSince (later earlier : Instant) : Int :=
  let plain := (later.seconds - earlier.seconds) * nanosPerSecond
    + ((later.nanos : Int) - (earlier.nanos : Int))
  if earlier.secondOfDay < later.secondOfDay && earlier.inLeapSecond then
    plain + nanosPerSecond
  else if later.secondOfDay < earlier.secondOfDay && later.inLeapSecond then
    plain - nanosPerSecond
  else plain

def addNanos (t : Instant) (n : Int) : Instant :=
  let total := t.seconds * nanosPerSecond + (t.nanos : Int) + n
  ⟨Int.fdiv total nanosPerSecond, (Int.fmod total nanosPerSecond).toNat⟩

end Instant

end Steward
