import AppSpec.Failure
import AppSpec.Text.Blank
import AppSpec.Value.Basic

/-!
Literals that stand without quotes: keywords, integers, decimals and words.
-/

namespace AppSpec

/-- A written number: an integer, or the real `digits * 10 ^ exponent`. -/
inductive Numeral where
  | integer (negative : Bool) (digits : List Char)
  | real (negative : Bool) (digits : List Char) (exponent : Int)
  deriving DecidableEq, Repr

namespace Numeral

def splitSign : List Char → Bool × List Char
  | '-' :: rest => (true, rest)
  | '+' :: rest => (false, rest)
  | cs => (false, cs)

def integer? (cs : List Char) : Option Numeral :=
  let (negative, digits) := splitSign cs
  if !digits.isEmpty && digits.all Text.isDigit then some (.integer negative digits) else none

def signed (negative : Bool) (n : Nat) : Int := if negative then -(n : Int) else n

/-- The decimals after a point, and the exponent that follows them. -/
def exponent? : List Char → Option Int
  | [] => none
  | e :: cs =>
      if e == 'e' || e == 'E' then
        match integer? cs with
        | some (.integer negative digits) => some (signed negative (Text.natOfDigits digits))
        | _ => none
      else none

/-- A real needs a point or an exponent, and digits; an exponent needs digits before the point. -/
def real? (cs : List Char) : Option Numeral :=
  let (negative, cs) := splitSign cs
  let whole := cs.takeWhile Text.isDigit
  match cs.dropWhile Text.isDigit with
  | '.' :: rest =>
      let places := rest.takeWhile Text.isDigit
      let digits := whole ++ places
      match rest.dropWhile Text.isDigit with
      | [] => if digits.isEmpty then none else some (.real negative digits (-places.length))
      | tail =>
          if whole.isEmpty then none
          else (exponent? tail).map fun e => .real negative digits (e - places.length)
  | tail => if whole.isEmpty then none else (exponent? tail).map (.real negative whole ·)

def scalar : Numeral → Except Failure Scalar
  | .integer negative digits =>
      if Text.maxIntegerDigits < digits.length then .error .integerTooLong
      else .ok (.int (signed negative (Text.natOfDigits digits)))
  | .real negative digits exponent =>
      .ok (.float (Decimal.ofDecimal negative (Text.natOfDigits digits) exponent))

end Numeral

namespace Literal

/-- What is matched to the end of a line also matches before one final line feed. -/
def upToLineEnd (cs : List Char) : List Char :=
  match cs.reverse with
  | '\n' :: rest => rest.reverse
  | _ => cs

def isLetter (c : Char) : Bool := ('a' ≤ c && c ≤ 'z') || ('A' ≤ c && c ≤ 'Z')

def isAsciiDigit (c : Char) : Bool := '0' ≤ c && c ≤ '9'

def isWordStart (c : Char) : Bool := isLetter c || isAsciiDigit c || c == '_'

def isWordChar (c : Char) : Bool := isWordStart c || c == '-' || c == '.'

def isBareWord : List Char → Bool
  | [] => false
  | c :: cs => isWordStart c && cs.all isWordChar

def isEnumWord (cs : List Char) : Bool := !cs.isEmpty && cs.all isWordChar

def keyword? (cs : List Char) : Option Scalar :=
  let lowered := String.ofList (cs.map Char.toLower)
  if lowered == "true" then some (.bool true)
  else if lowered == "false" then some (.bool false)
  else if lowered == "null" || lowered == "none" then some .null
  else none

/-- The value that a text without quotes writes, if it writes one. -/
def read (cs : List Char) : Except Failure (Option Scalar) :=
  match keyword? cs with
  | some s => .ok (some s)
  | none =>
      let line := upToLineEnd cs
      match (Numeral.integer? line).or (Numeral.real? line) with
      | some number => number.scalar.map some
      | none => .ok (if isBareWord line then some (.str (String.ofList cs)) else none)

end Literal

end AppSpec
