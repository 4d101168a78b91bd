import ManifestTree.Number.Literal

/-!
# Days and moments

Days of the calendar, and moments: a day with a time of day and perhaps a time zone.  Two moments
with a zone are the same if they are the same instant.  `Date.read?` reads either in its written
form, whether or not the calendar has it, and `Date.isValid` says whether it has.
-/

namespace ManifestTree.Yaml

open Text

/-! ## Days -/

/-- A day by its year, month and day of the month. -/
structure Day where
  /-- The year. -/
  year : Nat
  /-- The month, from one. -/
  month : Nat
  /-- The day of the month, from one. -/
  day : Nat
deriving DecidableEq, Repr

namespace Day

/-- A year with a leap day. -/
def isLeap (year : Nat) : Bool := year % 4 = 0 && (year % 100 ≠ 0 || year % 400 = 0)

def daysIn (year month : Nat) : Nat :=
  if month = 2 then (if isLeap year then 29 else 28)
  else if [4, 6, 9, 11].contains month then 30 else 31

/-- The calendar has this day.  It begins with the year one. -/
def isValid (d : Day) : Bool :=
  1 ≤ d.year && 1 ≤ d.month && d.month ≤ 12 && 1 ≤ d.day && d.day ≤ daysIn d.year d.month

/-- How many days come before a day in the calendar. -/
def number (d : Day) : Nat :=
  let past := d.year - 1
  let months := (List.range (d.month - 1)).foldl (fun n m => n + daysIn d.year (m + 1)) 0
  past * 365 + past / 4 - past / 100 + past / 400 + months + (d.day - 1)

/-- A number with zeros in front of it. -/
def padded (width n : Nat) : List Char :=
  let digits := Nat.toDigits 10 n
  List.replicate (width - digits.length) '0' ++ digits

/-- A day in print. -/
def text (d : Day) : List Char :=
  padded 4 d.year ++ '-' :: padded 2 d.month ++ '-' :: padded 2 d.day

end Day

/-! ## Moments -/

/-- A day with a time of day. -/
structure Moment where
  /-- The day. -/
  day : Day
  /-- The hour. -/
  hour : Nat
  /-- The minute. -/
  minute : Nat
  /-- The second. -/
  second : Nat
  /-- The microsecond. -/
  micro : Nat
  /-- How many minutes the time zone is ahead; a local time has none. -/
  zone : Option Int
deriving DecidableEq, Repr

namespace Moment

/-- The clock has this time and the calendar its day.  A time zone is less than a day ahead or
behind. -/
def isValid (m : Moment) : Bool :=
  m.day.isValid && m.hour < 24 && m.minute < 60 && m.second < 60
    && m.zone.all fun z => z.natAbs < 24 * 60

/-- How many microseconds come before a moment in its time zone's absence or at its zone. -/
def instant (m : Moment) : Int :=
  let minutes : Int := (m.day.number * 24 + m.hour) * 60 + m.minute - m.zone.getD 0
  (minutes * 60 + m.second) * 1000000 + m.micro

/-- Two moments are the same instant, or the same local time. -/
def same (a b : Moment) : Bool := a.zone.isSome = b.zone.isSome && a.instant = b.instant

/-- A time zone in print. -/
def zoneText : Option Int → List Char
  | none => []
  | some m =>
    (if m < 0 then '-' else '+') :: Day.padded 2 (m.natAbs / 60)
      ++ ':' :: Day.padded 2 (m.natAbs % 60)

/-- A moment in print, with its microseconds if there are any. -/
def text (m : Moment) : List Char :=
  m.day.text ++ ' ' :: Day.padded 2 m.hour ++ ':' :: Day.padded 2 m.minute
    ++ ':' :: Day.padded 2 m.second
    ++ (if m.micro = 0 then [] else '.' :: Day.padded 6 m.micro) ++ zoneText m.zone

end Moment

/-! ## Written forms -/

/-- A day, or a day with a time. -/
inductive Date where
  | day (day : Day)
  | moment (moment : Moment)
deriving DecidableEq, Repr

namespace Date

/-- The calendar and the clock have this date. -/
def isValid : Date → Bool
  | .day d => d.isValid
  | .moment m => m.isValid

/-- The number that ASCII digits write. -/
def number (digits : List Char) : Nat := (Literal.inBase? 10 (ofChars digits)).getD 0

/-- A number of between `low` and `high` digits at the start of a text, and what follows. -/
def number? (low high : Nat) (cs : List Char) : Option (Nat × List Char) :=
  let digits := (cs.take high).takeWhile fun c : Char => isAsciiDigit c
  if low ≤ digits.length then some (number digits, cs.drop digits.length) else none

/-- What follows a character that a text must begin with. -/
def after? (c : Char) : List Char → Option (List Char)
  | d :: cs => if c = d then some cs else none
  | [] => none

/-- A day with months and days of at least `low` digits, and what follows. -/
def calendar? (low : Nat) (cs : List Char) : Option (Day × List Char) := do
  let (y, cs) ← number? 4 4 cs
  let (m, cs) ← number? low 2 (← after? '-' cs)
  let (d, cs) ← number? low 2 (← after? '-' cs)
  some (⟨y, m, d⟩, cs)

/-- The microseconds that the digits of a fraction stand for, and what follows the fraction. -/
def fraction : List Char → Nat × List Char
  | '.' :: cs =>
    let digits := cs.takeWhile fun c : Char => isAsciiDigit c
    (number ((digits ++ List.replicate 6 '0').take 6), cs.drop digits.length)
  | cs => (0, cs)

/-- The time zone that makes up the rest of a text. -/
def zone? (cs : List Char) : Option (Option Int) :=
  match cs.dropWhile fun c : Char => isBlank c with
  | [] => if cs.isEmpty then some none else none
  | ['Z'] => some (some 0)
  | sign :: rest =>
    if sign = '+' || sign = '-' then do
      let (hours, rest) ← number? 1 2 rest
      let (minutes, rest) ← match rest with
        | [] => some (0, [])
        | c :: rest => if c = ':' then number? 2 2 rest else none
      if !rest.isEmpty then none
      else
        let offset : Int := hours * 60 + minutes
        some (some (if sign = '-' then -offset else offset))
    else none

/-- What follows the sign between a day and a time. -/
def afterDay? : List Char → Option (List Char)
  | c :: cs =>
    if c = 'T' || c = 't' then some cs
    else if isBlank c then some (cs.dropWhile fun c : Char => isBlank c) else none
  | [] => none

/-- A moment that makes up a whole text. -/
def moment? (cs : List Char) : Option Moment := do
  let (d, cs) ← calendar? 1 cs
  let (hour, cs) ← number? 1 2 (← afterDay? cs)
  let (minute, cs) ← number? 2 2 (← after? ':' cs)
  let (second, cs) ← number? 2 2 (← after? ':' cs)
  let (micro, cs) := fraction cs
  some ⟨d, hour, minute, second, micro, ← zone? cs⟩

/-- A day of months and days of at least `low` digits that makes up a whole text. -/
def day? (low : Nat) (cs : List Char) : Option Day := do
  let (d, rest) ← calendar? low cs
  if rest.isEmpty then some d else none

/-- A text that is a date without being asked for: a day has all of its digits. -/
def isPlain (cs : List Char) : Bool := (day? 2 cs).isSome || (moment? cs).isSome

/-- The date that a text writes. -/
def read? (cs : List Char) : Option Date := ((day? 1 cs).map .day).or ((moment? cs).map .moment)

end Date

end ManifestTree.Yaml
