import AppSpec.Failure
import AppSpec.TypeExpr.Literal
import AppSpec.Value.Moment

/-!
Dates and times of day as they are written in YAML.
-/

namespace AppSpec.Yaml

structure WrittenZone where
  negative : Bool
  hour : List Char
  minute : List Char

structure WrittenTime where
  hour : List Char
  minute : List Char
  second : List Char
  fraction : List Char
  zone : Option WrittenZone

/-- The digits of a date, and of a time of day behind it. -/
structure WrittenMoment where
  year : List Char
  month : List Char
  day : List Char
  time : Option WrittenTime

namespace WrittenMoment

/-- So many digits, or at least so many, and what is left. -/
def digits? (least most : Nat) (cs : List Char) : Option (List Char × List Char) :=
  let run := (cs.take most).takeWhile Literal.isAsciiDigit
  if run.length < least then none else some (run, cs.drop run.length)

def after? (c : Char) : List Char → Option (List Char)
  | [] => none
  | d :: cs => if d == c then some cs else none

def isSpaceOrTab (c : Char) : Bool := c == ' ' || c == '\t'

def fraction : List Char → List Char × List Char
  | '.' :: cs => (cs.takeWhile Literal.isAsciiDigit, cs.dropWhile Literal.isAsciiDigit)
  | cs => ([], cs)

def offset? (negative : Bool) (cs : List Char) : Option WrittenZone := do
  let (hour, cs) ← digits? 1 2 cs
  if cs.isEmpty then return ⟨negative, hour, []⟩
  else
    let (minute, cs) ← digits? 2 2 (← after? ':' cs)
    if cs.isEmpty then return ⟨negative, hour, minute⟩ else none

/-- The zone at the end of a time; the outer option tells whether the end is well formed. -/
def zone? (cs : List Char) : Option (Option WrittenZone) :=
  if cs.isEmpty then some none
  else
    match cs.dropWhile isSpaceOrTab with
    | ['Z'] => some (some ⟨false, [], []⟩)
    | '+' :: rest => (offset? false rest).map some
    | '-' :: rest => (offset? true rest).map some
    | _ => none

def time? : List Char → Option WrittenTime
  | [] => none
  | c :: cs => do
      let cs ←
        if c == 'T' || c == 't' then some cs
        else if isSpaceOrTab c then some (cs.dropWhile isSpaceOrTab)
        else none
      let (hour, cs) ← digits? 1 2 cs
      let (minute, cs) ← digits? 2 2 (← after? ':' cs)
      let (second, cs) ← digits? 2 2 (← after? ':' cs)
      let (fraction, cs) := fraction cs
      return ⟨hour, minute, second, fraction, ← zone? cs⟩

def read? (cs : List Char) : Option WrittenMoment := do
  let (year, cs) ← digits? 4 4 (Literal.upToLineEnd cs)
  let (month, cs) ← digits? 1 2 (← after? '-' cs)
  let (day, cs) ← digits? 1 2 (← after? '-' cs)
  if cs.isEmpty then return ⟨year, month, day, none⟩
  else return ⟨year, month, day, some (← time? cs)⟩

/-- Whether the text is one of a moment without being marked so: a date alone is written in full. -/
def isEvident (w : WrittenMoment) : Bool :=
  w.time.isSome || (w.month.length == 2 && w.day.length == 2)

def micro (fraction : List Char) : Nat :=
  let digits := fraction.take 6
  Text.natOfDigits (digits ++ List.replicate (6 - digits.length) '0')

def WrittenZone.minutes (z : WrittenZone) : Int :=
  let n : Int := Text.natOfDigits z.hour * 60 + Text.natOfDigits z.minute
  if z.negative then -n else n

def date (w : WrittenMoment) : Date :=
  ⟨Text.natOfDigits w.year, Text.natOfDigits w.month, Text.natOfDigits w.day⟩

def scalar (w : WrittenMoment) : Except Failure Scalar :=
  match w.time with
  | none => if w.date.isValid then .ok (.date w.date) else .error .impossibleTimestamp
  | some t =>
      let moment : Timestamp :=
        ⟨w.date, Text.natOfDigits t.hour, Text.natOfDigits t.minute, Text.natOfDigits t.second,
          micro t.fraction, t.zone.map WrittenZone.minutes⟩
      if moment.isValid then .ok (.timestamp moment) else .error .impossibleTimestamp

end WrittenMoment

end AppSpec.Yaml
