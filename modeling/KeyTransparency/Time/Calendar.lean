/-!
# The calendar

Days are counted from the first of January 1970 in the Gregorian calendar, which is carried on into
the years before it was introduced.
-/

namespace KeyTransparency.Time

/-- Whether a year has a leap day. -/
def isLeapYear (year : Int) : Bool :=
  year % 4 == 0 && (year % 100 != 0 || year % 400 == 0)

/-- The lengths of the months of a year. -/
def monthLengths (year : Int) : List Nat :=
  [31, if isLeapYear year then 29 else 28, 31, 30, 31, 30, 31, 31, 30, 31, 30, 31]

/-- A year, a month and a day, of which each is counted from one. -/
structure Date where
  year : Int
  month : Nat
  day : Nat
deriving DecidableEq

namespace Date

/-- Whether there is such a day. -/
def isValid (date : Date) : Bool :=
  match date.month with
  | 0 => false
  | month + 1 =>
    match (monthLengths date.year)[month]? with
    | some length => decide (1 ≤ date.day ∧ date.day ≤ length)
    | none => false

/-- The number of days from the first of January of the year 1 to that of a given year. -/
def daysBeforeYear (year : Int) : Int :=
  let past := year - 1
  365 * past + past / 4 - past / 100 + past / 400

/-- The number of days from the first of January 1970 to a date. -/
def dayNumber (date : Date) : Int :=
  let inYear := ((monthLengths date.year).take (date.month - 1)).foldl (· + ·) date.day - 1
  daysBeforeYear date.year - daysBeforeYear 1970 + inYear

/-- The first day that times are kept for. -/
def first : Date := ⟨-262143, 1, 1⟩

/-- The last day that times are kept for. -/
def last : Date := ⟨262142, 12, 31⟩

end Date

/-- Whether times are kept for a day. -/
def isKeptDay (dayNumber : Int) : Bool :=
  decide (Date.first.dayNumber ≤ dayNumber ∧ dayNumber ≤ Date.last.dayNumber)

end KeyTransparency.Time
