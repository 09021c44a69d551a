/-
WorkspaceAudit/Toml/Datetime.lean

Dates and times of a TOML document, and the text they are written as.
-/

namespace WorkspaceAudit.Toml

/-- A day of the calendar. -/
structure Date where
  year : Nat
  month : Nat
  day : Nat
  deriving DecidableEq, Repr

/-- A time of the day. -/
structure Time where
  hour : Nat
  minute : Nat
  second : Nat
  nanosecond : Nat
  deriving DecidableEq, Repr

/-- The distance from universal time: none by name, or so many minutes. -/
inductive Offset
  | zulu
  | minutes (east : Int)
  deriving DecidableEq, Repr

/-- What a TOML document may say of a point in time. -/
inductive Datetime
  | date (d : Date)
  | time (t : Time)
  | dateTime (d : Date) (t : Time)
  | instant (d : Date) (t : Time) (o : Offset)
  deriving DecidableEq, Repr

/-- A number with zeros in front up to a width. -/
def padded (width n : Nat) : List Char :=
  let cs := Nat.toDigits 10 n
  List.replicate (width - cs.length) '0' ++ cs

/-- The days of a month. -/
def daysIn (year month : Nat) : Nat :=
  if month = 2 then
    if year % 4 = 0 && (year % 100 != 0 || year % 400 = 0) then 29 else 28
  else if month = 4 || month = 6 || month = 9 || month = 11 then 30
  else 31

/-- Year, month and day with hyphens between them. -/
def Date.text (d : Date) : List Char :=
  padded 4 d.year ++ '-' :: padded 2 d.month ++ '-' :: padded 2 d.day

/-- Hour, minute and second with colons between them, and the fraction of
the second if there is one. -/
def Time.text (t : Time) : List Char :=
  let fraction := ((padded 9 t.nanosecond).reverse.dropWhile (· == '0')).reverse
  padded 2 t.hour ++ ':' :: padded 2 t.minute ++ ':' :: padded 2 t.second ++
    if fraction.isEmpty then [] else '.' :: fraction

/-- `Z`, or a sign with hours and minutes. -/
def Offset.text : Offset → List Char
  | zulu => ['Z']
  | minutes east =>
    (if east < 0 then '-' else '+') ::
      padded 2 (east.natAbs / 60) ++ ':' :: padded 2 (east.natAbs % 60)

/-- The text of a date, a time or both with a `T` between them. -/
def Datetime.text : Datetime → List Char
  | date d => d.text
  | time t => t.text
  | dateTime d t => d.text ++ 'T' :: t.text
  | instant d t o => d.text ++ 'T' :: t.text ++ o.text

end WorkspaceAudit.Toml
