/-!
Doubles as exact dyadic numbers, and the double nearest to an exact ratio.
-/

namespace AppSpec.Decimal

def twoTo (n : Nat) : Nat := Nat.pow 2 n

def tenTo (n : Nat) : Nat := Nat.pow 10 n

inductive Magnitude where
  | infinite
  | undefined
  /-- The number `mantissa * 2 ^ exponent`. -/
  | finite (mantissa : Nat) (exponent : Int)
  deriving DecidableEq, Repr

structure Binary64 where
  negative : Bool
  magnitude : Magnitude
  deriving DecidableEq, Repr

def Binary64.ofFloat (x : Float) : Binary64 :=
  let bits : Nat := x.toBits.toNat
  let fraction : Nat := bits % twoTo 52
  let scale : Nat := bits / twoTo 52 % 2048
  ⟨decide (twoTo 63 ≤ bits),
    if scale = 2047 then (if fraction = 0 then .infinite else .undefined)
    else if scale = 0 then .finite fraction (-1074)
    else .finite (twoTo 52 + fraction) ((scale : Int) - 1075)⟩

def Binary64.magnitudeBits : Magnitude → Nat
  | .infinite => 2047 * twoTo 52
  | .undefined => 2047 * twoTo 52 + twoTo 51
  | .finite mantissa exponent =>
      if mantissa < twoTo 52 then mantissa
      else (exponent + 1075).toNat * twoTo 52 + (mantissa - twoTo 52)

def Binary64.toFloat (b : Binary64) : Float :=
  Float.ofBits (UInt64.ofNat
    ((if b.negative then twoTo 63 else 0) + Binary64.magnitudeBits b.magnitude))

/-- The natural number nearest to `num / den`; of two nearest ones the even one. -/
def roundHalfEven (num den : Nat) : Nat :=
  let q := num / den
  let r := num % den
  if 2 * r < den then q
  else if den < 2 * r then q + 1
  else q + q % 2

def shiftRatio (num den : Nat) (exponent : Int) : Nat × Nat :=
  if 0 ≤ exponent then (num, den * twoTo exponent.toNat)
  else (num * twoTo (-exponent).toNat, den)

/-- The nearest double to `num / den`, for nonzero `den`; the even mantissa wins a tie. -/
def nearest (num den : Nat) : Magnitude :=
  if num = 0 then .finite 0 (-1074)
  else
    let guess : Int := (num.log2 : Int) - den.log2 - 52
    let (n, d) := shiftRatio num den guess
    let exponent := max (if n / d < twoTo 52 then guess - 1 else guess) (-1074)
    let (n, d) := shiftRatio num den exponent
    let mantissa := roundHalfEven n d
    let (mantissa, exponent) :=
      if mantissa = twoTo 53 then (twoTo 52, exponent + 1) else (mantissa, exponent)
    if 971 < exponent then .infinite else .finite mantissa exponent

/-- The double nearest to `digits * 10 ^ exponent`. -/
def nearestDecimal (digits : Nat) (exponent : Int) : Magnitude :=
  if digits = 0 then .finite 0 (-1074)
  else
    let places : Int := exponent + (Nat.toDigits 10 digits).length
    if 310 < places then .infinite
    else if places < -330 then .finite 0 (-1074)
    else if 0 ≤ exponent then nearest (digits * tenTo exponent.toNat) 1
    else nearest digits (tenTo (-exponent).toNat)

def ofDecimal (negative : Bool) (digits : Nat) (exponent : Int) : Float :=
  Binary64.toFloat ⟨negative, nearestDecimal digits exponent⟩

/-- The integer that the double equals, if it equals one. -/
def toInt? (x : Float) : Option Int :=
  let b := Binary64.ofFloat x
  match b.magnitude with
  | .finite mantissa exponent =>
      let signed (n : Nat) : Int := if b.negative then -(n : Int) else n
      if 0 ≤ exponent then some (signed (mantissa * twoTo exponent.toNat))
      else
        let unit := twoTo (-exponent).toNat
        if mantissa % unit = 0 then some (signed (mantissa / unit)) else none
  | _ => none

end AppSpec.Decimal
