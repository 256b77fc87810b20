import ClearSign.Text.Decimal

/-!
Calendar date and time of day, in UTC, of a count of seconds since 1970. Days are counted in
eras of 400 years that start on the first of March, so that the leap day ends its year.
-/

namespace ClearSign

structure Civil where
  year : Nat
  month : Nat
  day : Nat
  hour : Nat
  minute : Nat
  second : Nat
  deriving DecidableEq, Repr

namespace Civil

def daysInEra : Nat := 146097

/-- Days from the first of March of year 0 to the first of January 1970. -/
def epochShift : Nat := 719468

/-- The year within its era in which a day of the era falls. -/
def yearOfEra (dayOfEra : Nat) : Nat :=
  (dayOfEra - dayOfEra / 1460 + dayOfEra / 36524 - dayOfEra / 146096) / 365

/-- Year, month and day of a number of days since 1970. -/
def ofDays (days : Nat) : Nat × Nat × Nat :=
  let shifted := days + epochShift
  let era := shifted / daysInEra
  let dayOfEra := shifted % daysInEra
  let yoe := yearOfEra dayOfEra
  let dayOfYear := dayOfEra - (365 * yoe + yoe / 4 - yoe / 100)
  let fromMarch := (5 * dayOfYear + 2) / 153
  let month := if fromMarch < 10 then fromMarch + 3 else fromMarch - 9
  (yoe + era * 400 + (if month ≤ 2 then 1 else 0), month,
    dayOfYear - (153 * fromMarch + 2) / 5 + 1)

def ofTimestamp (seconds : Nat) : Civil :=
  let (year, month, day) := ofDays (seconds / 86400)
  let rest := seconds % 86400
  ⟨year, month, day, rest / 3600, rest % 3600 / 60, rest % 60⟩

/-- Year, month and day, as in 2024-01-31. -/
def dateChars (c : Civil) : List Char :=
  Decimal.padded 4 c.year ++ '-' :: Decimal.padded 2 c.month ++ '-' :: Decimal.padded 2 c.day

/-- The hour on a clock face. -/
def clockHour (hour : Nat) : Nat := if hour = 0 then 12 else if hour ≤ 12 then hour else hour - 12

def meridiem (hour : Nat) : List Char := if hour < 12 then ['A', 'M'] else ['P', 'M']

def timeChars (c : Civil) : List Char :=
  Decimal.padded 2 (clockHour c.hour) ++ ':' :: Decimal.padded 2 c.minute ++
    ':' :: Decimal.padded 2 c.second ++ ' ' :: meridiem c.hour

def dateText (seconds : Nat) : String := String.ofList (ofTimestamp seconds).dateChars

/-- Date and time, as in 2024-01-31 01:02:03 PM UTC. -/
def dateTimeText (seconds : Nat) : String :=
  let c := ofTimestamp seconds
  String.ofList (c.dateChars ++ ' ' :: c.timeChars ++ [' ', 'U', 'T', 'C'])

end Civil

end ClearSign
