import AppSpec.Json.Text
import AppSpec.TypeExpr.Literal

/-!
Numbers in YAML: in several bases, with digits grouped by underscores, or in parts of sixty. A text
that is not marked as a number is one only in the forms listed here; a marked one is read freely.
-/

namespace AppSpec.Yaml

namespace Number

def isGrouped (p : Char → Bool) (c : Char) : Bool := p c || c == '_'

/-- A character of a class, followed only by others of it and underscores. -/
def isGroupedRun (p : Char → Bool) : List Char → Bool
  | [] => false
  | c :: cs => p c && cs.all (isGrouped p)

def isOneToNine (c : Char) : Bool := '1' ≤ c && c ≤ '9'

def isOctalDigit (c : Char) : Bool := '0' ≤ c && c ≤ '7'

def isBinaryDigit (c : Char) : Bool := c == '0' || c == '1'

def isHex (c : Char) : Bool := (Json.hexValue? c).isSome

def unsigned (cs : List Char) : List Char := (Numeral.splitSign cs).2

/-- A part of sixty: one digit, or two of which the first is at most five. -/
def isSixtieth : List Char → Bool
  | [d] => Literal.isAsciiDigit d
  | [t, d] => '0' ≤ t && t ≤ '5' && Literal.isAsciiDigit d
  | _ => false

def startsWithNonzero (cs : List Char) : Bool := (cs.head?.map isOneToNine).getD false

/-- Digits, then parts of sixty behind colons. -/
def isInSixties (cs : List Char) : Bool :=
  match cs.splitOn ':' with
  | whole :: part :: parts =>
      isGroupedRun Literal.isAsciiDigit whole && (part :: parts).all isSixtieth
  | _ => false

def isNonemptyRun (p : Char → Bool) (cs : List Char) : Bool := !cs.isEmpty && cs.all (isGrouped p)

def isUnsignedInteger : List Char → Bool
  | '0' :: 'b' :: cs => isNonemptyRun isBinaryDigit cs
  | '0' :: 'x' :: cs => isNonemptyRun isHex cs
  | '0' :: cs => cs.all (isGrouped isOctalDigit)
  | cs =>
      startsWithNonzero cs && (cs.all (isGrouped Literal.isAsciiDigit) || isInSixties cs)

def isInteger (cs : List Char) : Bool := isUnsignedInteger (unsigned cs)

def isSignedExponent : List Char → Bool
  | [] => true
  | e :: sign :: digits =>
      (e == 'e' || e == 'E') && (sign == '+' || sign == '-') && !digits.isEmpty &&
        digits.all Literal.isAsciiDigit
  | _ => false

/-- Decimals behind a point, and an exponent with a sign. -/
def isFraction (cs : List Char) : Bool :=
  isSignedExponent (cs.dropWhile (isGrouped Literal.isAsciiDigit))

def isUnsignedReal (cs : List Char) : Bool :=
  let whole := cs.takeWhile fun c => c != '.'
  match cs.dropWhile fun c => c != '.' with
  | [] => false
  | _ :: places =>
      (isGroupedRun Literal.isAsciiDigit whole && isFraction places) ||
        (isInSixties whole && places.all (isGrouped Literal.isAsciiDigit))

def isPointFirst : List Char → Bool
  | '.' :: d :: places => Literal.isAsciiDigit d && isFraction places
  | _ => false

def infinities : List String := [".inf", ".Inf", ".INF"]

def notNumbers : List String := [".nan", ".NaN", ".NAN"]

def isReal (cs : List Char) : Bool :=
  isUnsignedReal (unsigned cs) || isPointFirst cs ||
    infinities.contains (String.ofList (unsigned cs)) || notNumbers.contains (String.ofList cs)

/-! Values -/

def digitIn? (base : Nat) (c : Char) : Option Nat :=
  ((Text.digitValue? c).or (Json.hexValue? c)).filter fun n => decide (n < base)

def ofDigits? (base : Nat) (cs : List Char) : Option Nat :=
  if cs.isEmpty then none
  else cs.foldl (fun n c => n.bind fun n => (digitIn? base c).map (n * base + ·)) (some 0)

/-- Without the mark that may tell the base. -/
def withoutBase (base : Nat) : List Char → List Char
  | '0' :: m :: cs =>
      if (base == 2 && (m == 'b' || m == 'B')) || (base == 8 && (m == 'o' || m == 'O')) ||
          (base == 16 && (m == 'x' || m == 'X')) then cs
      else '0' :: m :: cs
  | cs => cs

/-- An integer in a base, with a sign and margins. Only decimal digits are limited in number. -/
def integerIn (base : Nat) (cs : List Char) : Except Failure Int :=
  let (negative, cs) := Numeral.splitSign (Text.withoutMargins cs)
  let cs := withoutBase base cs
  match ofDigits? base cs with
  | none => .error .noNumber
  | some n =>
      if base == 10 && Text.maxIntegerDigits < cs.length then .error .integerTooLong
      else .ok (Numeral.signed negative n)

def withoutUnderscores (cs : List Char) : List Char := cs.filter fun c => c != '_'

def sixties (parts : List Int) : Int := parts.foldl (fun n part => n * 60 + part) 0

def unsignedInteger (cs : List Char) : Except Failure Int :=
  match cs with
  | ['0'] => .ok 0
  | '0' :: 'b' :: cs => integerIn 2 cs
  | '0' :: 'x' :: cs => integerIn 16 cs
  | '0' :: cs => integerIn 8 ('0' :: cs)
  | [] => .error .emptyNumber
  | cs =>
      if cs.contains ':' then do return sixties (← (cs.splitOn ':').mapM (integerIn 10))
      else integerIn 10 cs

def integer (cs : List Char) : Except Failure Int :=
  let (negative, cs) := Numeral.splitSign (withoutUnderscores cs)
  (unsignedInteger cs).map fun n => if negative then -n else n

def infinity : Float := 1.0 / 0.0

def notNumber : Float := 0.0 / 0.0

def signedReal (negative : Bool) (x : Float) : Float := if negative then -x else x

def decimal? (negative : Bool) (cs : List Char) : Option Float :=
  let whole := cs.takeWhile Text.isDigit
  let (places, rest) :=
    match cs.dropWhile Text.isDigit with
    | '.' :: rest => (rest.takeWhile Text.isDigit, rest.dropWhile Text.isDigit)
    | rest => ([], rest)
  let exponent := if rest.isEmpty then some 0 else Numeral.exponent? rest
  if whole.isEmpty && places.isEmpty then none
  else
    exponent.map fun e =>
      Decimal.ofDecimal negative (Text.natOfDigits (whole ++ places)) (e - places.length)

def plainReal (cs : List Char) : Except Failure Float :=
  let (negative, cs) := Numeral.splitSign (Text.withoutMargins cs)
  let word := String.ofList cs
  if word == "inf" || word == "infinity" then .ok (signedReal negative infinity)
  else if word == "nan" then .ok notNumber
  else
    match decimal? negative cs with
    | some x => .ok x
    | none => .error .noNumber

/-- The sum of parts, the last one first, each weighing sixty times the one before. -/
def weighted : List Float → Nat → Float → Except Failure Float
  | [], _, sum => .ok sum
  | part :: parts, weight, sum =>
      let w := Decimal.ofDecimal false weight 0
      if w == infinity then .error .numberTooLarge
      else weighted parts (weight * 60) (sum + part * w)

def unsignedReal (cs : List Char) : Except Failure Float :=
  let word := String.ofList cs
  if word == ".inf" then .ok infinity
  else if word == ".nan" then .ok notNumber
  else if cs.contains ':' then do
    weighted (← (cs.splitOn ':').mapM plainReal).reverse 1 0
  else plainReal cs

def lowered (cs : List Char) : List Char := (withoutUnderscores cs).map Char.toLower

def real (cs : List Char) : Except Failure Float :=
  match lowered cs with
  | [] => .error .emptyNumber
  | cs =>
      let (negative, cs) := Numeral.splitSign cs
      (unsignedReal cs).map (signedReal negative)

def isPointedNan (cs : List Char) : Bool := String.ofList (unsigned (lowered cs)) == ".nan"

end Number

end AppSpec.Yaml
