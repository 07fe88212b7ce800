import AppSpec.Text.Blank
import AppSpec.Value.Basic

/-!
The integers that values stand for where an integer is asked for: truth values and whole reals do,
and texts that write one.
-/

namespace AppSpec

namespace IntegerText

/-- What follows zeros and underscores; the last of them stays at the end and before a point. -/
def afterZeros (last : Char) : List Char → List Char
  | [] => [last]
  | c :: cs =>
      if c == '0' || c == '_' then afterZeros c cs
      else if c == '.' then last :: c :: cs
      else c :: cs

def withoutLeadingZeros : List Char → List Char
  | '0' :: cs => afterZeros '0' cs
  | cs => cs

/-- Without a point that zeros follow, and nothing else. -/
def withoutPlaces (cs : List Char) : List Char :=
  let places := (cs.dropWhile (· != '.')).drop 1
  if !places.isEmpty && places.all (· == '0') then cs.takeWhile (· != '.') else cs

def ofDigits? (ds : List Char) : Option Nat :=
  if !ds.isEmpty && ds.all Char.isDigit && ds.length ≤ Text.maxIntegerDigits then
    some (Text.natOfDigits ds)
  else none

/-- Underscores stand one by one between other characters. -/
def ungrouped? (cs : List Char) : Option (List Char) :=
  let pieces := cs.splitOn '_'
  if pieces.any List.isEmpty then none else some pieces.flatten

def unsigned? (cs : List Char) : Option Nat :=
  (ungrouped? (withoutPlaces (withoutLeadingZeros cs))).bind ofDigits?

def read? (s : String) : Option Int :=
  match Text.withoutMargins s.toList with
  | '-' :: cs => (unsigned? cs).map fun n => -(n : Int)
  | '+' :: cs => (unsigned? cs).map fun n => (n : Int)
  | cs => (unsigned? cs).map fun n => (n : Int)

end IntegerText

namespace Scalar

/-- Reals stand for integers below this bound and above its opposite. -/
def integerBound : Nat := 0x8000000000000000

def integer? : Scalar → Option Int
  | .str s => IntegerText.read? s
  | .float x => (Decimal.toInt? x).filter fun n => decide (n.natAbs < integerBound)
  | s => s.toInt?

end Scalar

def Value.integer? : Value → Option Int
  | .scalar s => s.integer?
  | _ => none

end AppSpec
