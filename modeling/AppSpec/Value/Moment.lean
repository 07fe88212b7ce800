/-!
Calendar dates and times of day, and their texts.
-/

namespace AppSpec

structure Date where
  year : Nat
  month : Nat
  day : Nat
  deriving DecidableEq, Repr

/-- A date with a time of day; `offset` counts the minutes by which its clock is ahead of the
universal one, when it says so. -/
structure Timestamp where
  date : Date
  hour : Nat
  minute : Nat
  second : Nat
  micro : Nat
  offset : Option Int
  deriving DecidableEq, Repr

namespace Text

def padded (width n : Nat) : String :=
  let digits := Nat.toDigits 10 n
  String.ofList (List.replicate (width - digits.length) '0' ++ digits)

end Text

namespace Date

def isLeap (year : Nat) : Bool := year % 4 == 0 && (year % 100 != 0 || year % 400 == 0)

def daysInMonth (year month : Nat) : Nat :=
  if month == 2 then (if isLeap year then 29 else 28)
  else if month == 4 || month == 6 || month == 9 || month == 11 then 30
  else 31

def isValid (d : Date) : Bool :=
  decide (1 ≤ d.year) && decide (1 ≤ d.month) && decide (d.month ≤ 12) && decide (1 ≤ d.day) &&
    decide (d.day ≤ daysInMonth d.year d.month)

def daysBeforeYear (year : Nat) : Nat :=
  let y := year - 1
  y * 365 + y / 4 - y / 100 + y / 400

def daysBeforeMonth (year month : Nat) : Nat :=
  ((List.range (month - 1)).map fun m => daysInMonth year (m + 1)).foldl (· + ·) 0

def ordinal (d : Date) : Nat := daysBeforeYear d.year + daysBeforeMonth d.year d.month + d.day

def text (d : Date) : String :=
  Text.padded 4 d.year ++ "-" ++ Text.padded 2 d.month ++ "-" ++ Text.padded 2 d.day

def shown (d : Date) : String :=
  "datetime.date(" ++ toString d.year ++ ", " ++ toString d.month ++ ", " ++ toString d.day ++ ")"

end Date

namespace Timestamp

def isValid (t : Timestamp) : Bool :=
  t.date.isValid && decide (t.hour < 24) && decide (t.minute < 60) && decide (t.second < 60) &&
    decide (t.micro < 1000000) &&
    match t.offset with
    | none => true
    | some offset => decide (offset.natAbs < 1440)

def offsetText (offset : Int) : String :=
  let n := offset.natAbs
  (if offset < 0 then "-" else "+") ++ Text.padded 2 (n / 60) ++ ":" ++ Text.padded 2 (n % 60)

def textWith (separator : String) (t : Timestamp) : String :=
  t.date.text ++ separator ++ Text.padded 2 t.hour ++ ":" ++ Text.padded 2 t.minute ++ ":" ++
    Text.padded 2 t.second ++ (if t.micro == 0 then "" else "." ++ Text.padded 6 t.micro) ++
    match t.offset with
    | none => ""
    | some offset => offsetText offset

def iso (t : Timestamp) : String := t.textWith "T"

def text (t : Timestamp) : String := t.textWith " "

def zoneShown (offset : Int) : String :=
  if offset == 0 then "datetime.timezone.utc"
  else if offset < 0 then
    "datetime.timezone(datetime.timedelta(days=-1, seconds=" ++
      toString (86400 + offset * 60) ++ "))"
  else "datetime.timezone(datetime.timedelta(seconds=" ++ toString (offset * 60) ++ "))"

def shown (t : Timestamp) : String :=
  let clock :=
    if t.micro != 0 then [t.second, t.micro] else if t.second != 0 then [t.second] else []
  let numbers := [t.date.year, t.date.month, t.date.day, t.hour, t.minute] ++ clock
  "datetime.datetime(" ++ ", ".intercalate (numbers.map toString) ++
    (match t.offset with
    | none => ""
    | some offset => ", tzinfo=" ++ zoneShown offset) ++ ")"

def minutes (t : Timestamp) : Int :=
  ((t.date.ordinal * 1440 + t.hour * 60 + t.minute : Nat) : Int) - t.offset.getD 0

/-- Whether two timestamps are the same moment; one without a zone is no moment of the others. -/
def same (s t : Timestamp) : Bool :=
  s.offset.isSome == t.offset.isSome && s.minutes == t.minutes && s.second == t.second &&
    s.micro == t.micro

end Timestamp

end AppSpec
