/-!
# Dates

The date of a moment in universal time, written as in the header of a mail. The calendar repeats
every 400 years. Within such an era, years are counted from March, so that a leap day ends its year.
-/

namespace Cartridge

/-- A day of the calendar. -/
structure Date where
  year : Nat
  month : Nat
  day : Nat
deriving DecidableEq, Repr, Inhabited

namespace Date

/-- The days from the first of March of the year 0 to the start of 1970. -/
def epoch : Nat := 719468

/-- The days of an era. -/
def eraDays : Nat := 146097

/-- The day that lies a number of days after the start of 1970. -/
def ofDays (days : Nat) : Date :=
  let era := (days + epoch) / eraDays
  let inEra := (days + epoch) % eraDays
  let year := (inEra - inEra / 1460 + inEra / 36524 - inEra / 146096) / 365
  let inYear := inEra - (365 * year + year / 4 - year / 100)
  let month := (5 * inYear + 2) / 153
  { year := 400 * era + year + (if month < 10 then 0 else 1)
    month := if month < 10 then month + 3 else month - 9
    day := inYear - (153 * month + 2) / 5 + 1 }

/-- The names of the days of the week; the first day of 1970 was the first of them. -/
def weekdays : List String := ["Thu", "Fri", "Sat", "Sun", "Mon", "Tue", "Wed"]

/-- The names of the months. -/
def months : List String :=
  ["Jan", "Feb", "Mar", "Apr", "May", "Jun", "Jul", "Aug", "Sep", "Oct", "Nov", "Dec"]

/-- A number with two digits. -/
def twoDigits (n : Nat) : String := if n < 10 then "0" ++ toString n else toString n

/-- The moment that lies a number of seconds after the start of 1970. -/
def textOfSeconds (seconds : Nat) : String :=
  let days := seconds / 86400
  let date := ofDays days
  weekdays.getD (days % 7) "" ++ ", " ++ toString date.day ++ " " ++
    months.getD (date.month - 1) "" ++ " " ++ toString date.year ++ " " ++
    twoDigits (seconds / 3600 % 24) ++ ":" ++ twoDigits (seconds / 60 % 60) ++ ":" ++
    twoDigits (seconds % 60) ++ " +0000"

end Date

end Cartridge
