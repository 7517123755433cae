import KeyTransparency.Text.Blank
import KeyTransparency.Time.Calendar

/-!
# Times of day as text

A time is written as a date, a time of day and an offset from universal time, such as
`2025-10-09T10:53:20+02:00`.  What is read is wider than what is usually written: blanks may stand
between the parts, leading zeros may be missing, years may have a sign and then any number of
digits, and the time of day may be a leap second.
-/

namespace KeyTransparency.Time.Rfc3339

/-- A reader of the beginning of a text. -/
abbrev Reader := StateT (List Char) Option

/-- Passes over blanks. -/
def blanks : Reader Unit := modify (·.dropWhile Text.isBlank)

/-- The value of a digit. -/
def digitValue (c : Char) : Nat := c.toNat - '0'.toNat

/-- The number that some digits write. -/
def ofDigits (digits : List Char) : Nat :=
  digits.foldl (fun value c => 10 * value + digitValue c) 0

/-- Reads digits, at least one and at most `most`. -/
def digits (most : Nat) : Reader (List Char) := fun text =>
  let found := (text.take most).takeWhile Char.isDigit
  if found = [] then none else some (found, text.drop found.length)

/-- Reads a number of at most `most` digits that lies between the bounds, after any blanks. -/
def number (most least greatest : Nat) : Reader Nat := do
  blanks
  let value := ofDigits (← digits most)
  guard (least ≤ value ∧ value ≤ greatest)
  return value

/-- Reads a given character, after any blanks. -/
def mark (c : Char) : Reader Unit := do
  blanks
  match ← get with
  | next :: rest => if next = c then set rest else failure
  | [] => failure

/-- Reads a year: four digits at most, or any number of digits after a sign. -/
def year : Reader Int := do
  blanks
  match ← get with
  | '-' :: rest => set rest; return -(ofDigits (← digits rest.length) : Int)
  | '+' :: rest => set rest; return ofDigits (← digits rest.length)
  | _ => return ofDigits (← digits 4)

/-- Reads a date. -/
def date : Reader Date := do
  let year ← year
  mark '-'
  let month ← number 2 1 12
  mark '-'
  let date : Date := ⟨year, month, ← number 2 1 31⟩
  guard date.isValid
  guard (isKeptDay date.dayNumber)
  return date

/-- Reads what stands between a date and a time of day. -/
def separator : Reader Unit := do
  match ← get with
  | c :: rest => if c = 'T' ∨ c = 't' ∨ c = ' ' then set rest else failure
  | [] => failure

/-- Reads a fraction of a second, if there is one, and rounds it down to milliseconds.  Digits after
the ninth are passed over. -/
def fraction : Reader Nat := do
  match ← get with
  | '.' :: rest =>
    set rest
    let found ← digits 9
    modify (·.dropWhile Char.isDigit)
    return ofDigits ((found ++ ['0', '0', '0']).take 3)
  | _ => return 0

/-- Reads a time of day: the seconds since midnight, and the milliseconds after them.  A leap second
belongs to the second before it. -/
def timeOfDay : Reader (Nat × Nat) := do
  let hour ← number 2 0 23
  mark ':'
  let minute ← number 2 0 59
  mark ':'
  let second ← number 2 0 60
  let counted := min second 59
  return (3600 * hour + 60 * minute + counted, 1000 * (second - counted) + (← fraction))

/-- Reads a number of exactly two digits. -/
def twoDigits : Reader Nat := do
  let found ← digits 2
  guard (found.length = 2)
  return ofDigits found

/-- Reads the hours and minutes of an offset, in minutes. -/
def offsetMinutes : Reader Int := do
  let hours ← twoDigits
  modify (·.dropWhile fun c => c == ':' || Text.isBlank c)
  let minutes ← twoDigits
  guard (hours ≤ 23 ∧ minutes ≤ 59)
  return 60 * hours + minutes

/-- Reads an offset from universal time, in minutes. -/
def offset : Reader Int := do
  blanks
  let text ← get
  if (text.take 3).map Char.toUpper = ['U', 'T', 'C'] then
    set (text.drop 3)
    return 0
  match text with
  | 'Z' :: rest | 'z' :: rest => set rest; return 0
  | '+' :: rest => set rest; offsetMinutes
  | '-' :: rest | '\u2212' :: rest => set rest; return -(← offsetMinutes)
  | _ => failure

/-- Reads a time, in milliseconds since the start of 1970. -/
def millis : Reader Int := do
  let date ← date
  separator
  let (sinceMidnight, after) ← timeOfDay
  let offset ← offset
  blanks
  guard ((← get) = [])
  let daySeconds : Int := 24 * 60 * 60
  let seconds := daySeconds * date.dayNumber + sinceMidnight - 60 * offset
  guard (isKeptDay (seconds / daySeconds))
  return 1000 * seconds + after

/-- The time that a text writes, in milliseconds since the start of 1970. -/
def ofText? (text : String) : Option Int64 := (millis.run' text.toList).map Int64.ofInt

end KeyTransparency.Time.Rfc3339
