/-
WorkspaceAudit/Toml/Moment.lean

Reading the dates and times of a TOML document.

A date stands alone or before a time of the day, which may have an offset; a
time may stand alone too.  After the first hyphen of a date and the first
colon of a time nothing else can be meant.
-/
import WorkspaceAudit.Toml.Text

namespace WorkspaceAudit.Toml

open Reader

/-- Exactly so many digits, for a number in the range. -/
def number (width low high : Nat) : Reader Nat :=
  fun s =>
    let ds := s.take width
    if ds.length = width && ds.all Char.isDigit then
      let n := ofDigits 10 ds
      if low ≤ n && n ≤ high then .done n (s.drop width) else refuse .outOfRange s
    else .miss (.at s)

/-- A day that the month has. -/
def dayOf (year month : Nat) : Reader Nat :=
  (number 2 1 31).checked fun day =>
    if day ≤ daysIn year month then .ok day else .error .outOfRange

/-- Year, month and day. -/
def fullDate : Reader Date := do
  let year ← number 4 0 9999
  sign '-'
  let month ← firm (number 2 1 12)
  firm (sign '-')
  let day ← firm (dayOf year month)
  return ⟨year, month, day⟩

/-- The fraction of a second in nanoseconds; what is finer is dropped. -/
def nanoseconds : Reader Nat := do
  sign '.'
  let ds ← many1 Char.isDigit
  let nine := ds.take 9
  return ofDigits 10 (nine ++ List.replicate (9 - nine.length) '0')

/-- Hour, minute and second. -/
def partialTime : Reader Time := do
  let hour ← number 2 0 23
  sign ':'
  firm do
    let minute ← number 2 0 59
    sign ':'
    let second ← number 2 0 60
    let nanosecond ← optional nanoseconds
    return ⟨hour, minute, second, nanosecond.getD 0⟩

/-- `Z`, or a sign with hours and minutes. -/
def offset : Reader Offset :=
  label "time offset" <|
    (do let _ ← one fun c => c == 'Z' || c == 'z'; return .zulu : Reader Offset).orElse do
      let mark ← one fun c => c == '+' || c == '-'
      firm do
        let hours ← number 2 0 23
        sign ':'
        let minutes ← number 2 0 59
        let east : Int := hours * 60 + minutes
        return .minutes (if mark = '-' then -east else east)

/-- What may follow a date: a separator, a time and an offset or none. -/
def timeAfterDate : Reader (Time × Option Offset) := do
  let _ ← one fun c => c == 'T' || c == 't' || c == ' '
  return (← partialTime, ← optional offset)

/-- A date with or without a time after it, or a time. -/
def datetime : Reader Datetime :=
  (label "date-time" do
    let d ← fullDate
    match ← optional timeAfterDate with
    | none => return Datetime.date d
    | some (t, none) => return Datetime.dateTime d t
    | some (t, some o) => return Datetime.instant d t o).orElse
  (label "time" do return Datetime.time (← partialTime))

/-- The date or time that is the whole of a text. -/
def datetimeOf? (s : String) : Option Datetime :=
  match datetime s.toList with
  | .done d [] => some d
  | _ => none

end WorkspaceAudit.Toml
