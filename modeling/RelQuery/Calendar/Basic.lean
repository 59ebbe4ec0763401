import RelQuery.Decimal.Numeral

/-!
# Dates and times of day

The proleptic Gregorian calendar and the ISO 8601 texts of its dates and times.
-/

namespace RelQuery.Calendar

def isLeap (year : Int) : Bool := year % 4 == 0 && (year % 100 != 0 || year % 400 == 0)

def daysIn (year : Int) (month : Nat) : Nat :=
  if month = 2 then if isLeap year then 29 else 28
  else if month = 4 ∨ month = 6 ∨ month = 9 ∨ month = 11 then 30
  else 31

structure Date where
  year : Int
  month : Nat
  day : Nat
  deriving DecidableEq, Repr

/-- The dates from the first to the last year that can be stored. -/
def Date.mk? (year : Int) (month day : Nat) : Option Date :=
  if -262143 ≤ year ∧ year ≤ 262142 ∧ 1 ≤ month ∧ month ≤ 12 ∧ 1 ≤ day ∧ day ≤ daysIn year month then
    some ⟨year, month, day⟩
  else none

/-- The date so many days after 1970-01-01. Years are counted from March, in eras of 400 years, so
that the leap day is the last of its year. -/
def Date.ofDays (days : Int) : Date :=
  let fromMarch := days + 719468
  let era := fromMarch / 146097
  let dayOfEra := (fromMarch % 146097).toNat
  let yearOfEra := (dayOfEra - dayOfEra / 1460 + dayOfEra / 36524 - dayOfEra / 146096) / 365
  let dayOfYear := dayOfEra - (365 * yearOfEra + yearOfEra / 4 - yearOfEra / 100)
  let shifted := (5 * dayOfYear + 2) / 153
  let month := if shifted < 10 then shifted + 3 else shifted - 9
  let year : Int := era * 400 + yearOfEra
  ⟨if month ≤ 2 then year + 1 else year, month, dayOfYear - (153 * shifted + 2) / 5 + 1⟩

/-- A time of day; second 60 is a leap second. -/
structure Clock where
  hour : Nat
  minute : Nat
  second : Nat
  nano : Nat
  deriving DecidableEq, Repr

def Clock.mk? (hour minute second nano : Nat) : Option Clock :=
  if hour < 24 ∧ minute < 60 ∧ second ≤ 60 then some ⟨hour, minute, second, nano⟩ else none

/-- The time so many microseconds after midnight. -/
def Clock.ofMicros (micros : Nat) : Clock :=
  let seconds := micros / 1000000
  ⟨seconds / 3600, seconds / 60 % 60, seconds % 60, micros % 1000000 * 1000⟩

def Clock.midnight : Clock := ⟨0, 0, 0, 0⟩

/-- A date and time at an offset from UTC. -/
structure Timestamp where
  date : Date
  clock : Clock
  /-- Minutes east of UTC. -/
  offset : Int
  deriving DecidableEq, Repr

def microsPerDay : Int := 86400000000

/-- The time in UTC so many microseconds after 1970. -/
def Timestamp.ofMicros (micros : Int) : Timestamp :=
  ⟨.ofDays (micros / microsPerDay), .ofMicros (micros % microsPerDay).toNat, 0⟩

/-- At least `width` digits. -/
def padded (width n : Nat) : String :=
  let ds := (toString n).toList
  .ofList (List.replicate (width - ds.length) '0' ++ ds)

/-- Four digits from 0 to 9999, beyond that a sign and at least four digits. -/
def yearText (year : Int) : String :=
  if 0 ≤ year ∧ year ≤ 9999 then padded 4 year.toNat
  else (if year < 0 then "-" else "+") ++ padded 4 year.natAbs

def Date.text (d : Date) : String :=
  yearText d.year ++ "-" ++ padded 2 d.month ++ "-" ++ padded 2 d.day

/-- A fraction of a second in three, six or nine digits, whichever is enough. -/
def fractionText (nano : Nat) : String :=
  if nano = 0 then ""
  else if nano % 1000000 = 0 then "." ++ padded 3 (nano / 1000000)
  else if nano % 1000 = 0 then "." ++ padded 6 (nano / 1000)
  else "." ++ padded 9 nano

def Clock.text (c : Clock) : String :=
  padded 2 c.hour ++ ":" ++ padded 2 c.minute ++ ":" ++ padded 2 c.second ++ fractionText c.nano

def offsetText (minutes : Int) : String :=
  (if minutes < 0 then "-" else "+") ++ padded 2 (minutes.natAbs / 60) ++ ":" ++
    padded 2 (minutes.natAbs % 60)

/-- The text of date and time without the offset. -/
def Timestamp.localText (t : Timestamp) : String := t.date.text ++ "T" ++ t.clock.text

/-- RFC 3339 text. -/
def Timestamp.text (t : Timestamp) : String := t.localText ++ offsetText t.offset

end RelQuery.Calendar
