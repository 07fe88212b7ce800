import AppSpec.Decimal.Binary64

/-!
The fewest decimal digits that read back as the same double, and their text: positional between
`0.0001` and `1e16`, with an exponent of at least two digits outside.
-/

namespace AppSpec.Decimal

/-- The number `digits * 10 ^ exponent`. -/
structure Digits where
  digits : Nat
  exponent : Int
  deriving DecidableEq, Repr

/-- The positive reals that round to one double: all between `low / den` and `high / den`, the ends
included when `closed`; `value / den` is the double itself. -/
structure Rounding where
  low : Nat
  value : Nat
  high : Nat
  den : Nat
  closed : Bool

def Rounding.ofFinite (mantissa : Nat) (exponent : Int) : Rounding :=
  let below := if mantissa = twoTo 52 ∧ -1074 < exponent then 1 else 2
  let up := twoTo exponent.toNat
  ⟨(4 * mantissa - below) * up, 4 * mantissa * up, (4 * mantissa + 2) * up,
    4 * twoTo (-exponent).toNat, mantissa % 2 == 0⟩

def Rounding.holds (r : Rounding) (num den : Nat) : Bool :=
  if r.closed then decide (r.low * den ≤ num * r.den) && decide (num * r.den ≤ r.high * den)
  else decide (r.low * den < num * r.den) && decide (num * r.den < r.high * den)

/-- The better of the two neighbours of the value on the grid of multiples of `10 ^ exponent`. -/
def Rounding.onGrid? (r : Rounding) (exponent : Int) : Option Digits :=
  let up := tenTo exponent.toNat
  let down := tenTo (-exponent).toNat
  let below := r.value * down / (r.den * up)
  let gapBelow := r.value * down - below * (r.den * up)
  let gapAbove := (below + 1) * (r.den * up) - r.value * down
  let first := if gapBelow < gapAbove ∨ (gapBelow = gapAbove ∧ below % 2 = 0) then below else below + 1
  let second := if first = below then below + 1 else below
  ([first, second].find? fun n => decide (0 < n) && r.holds (n * up) down).map (⟨·, exponent⟩)

/-- How many places before the point the value takes: the least `e` with `value < 10 ^ e`. -/
def Rounding.places (r : Rounding) : Int :=
  let guess : Int := ((Nat.toDigits 10 r.value).length : Int) - (Nat.toDigits 10 r.den).length
  if r.value * tenTo (-guess).toNat < r.den * tenTo guess.toNat then guess else guess + 1

def Rounding.shortest (r : Rounding) : Digits :=
  let places := r.places
  ((List.range 17).findSome? fun (n : Nat) => r.onGrid? (places - (n + 1))).getD
    ⟨r.value / r.den, 0⟩

def dropZeros (cs : List Char) : List Char := (cs.reverse.dropWhile (· == '0')).reverse

def zeros (n : Nat) : List Char := List.replicate n '0'

def exponentText (e : Int) : List Char :=
  let digits := Nat.toDigits 10 e.natAbs
  'e' :: (if e < 0 then '-' else '+') :: (zeros (2 - digits.length) ++ digits)

/-- The text of `0.d₁d₂… * 10 ^ point`. -/
def layout (digits : List Char) (point : Int) : List Char :=
  if -4 < point ∧ point ≤ 16 then
    if point ≤ 0 then '0' :: '.' :: (zeros (-point).toNat ++ digits)
    else
      let whole := digits.take point.toNat
      let rest := digits.drop point.toNat
      whole ++ zeros (point.toNat - whole.length) ++ '.' :: (if rest.isEmpty then ['0'] else rest)
  else
    digits.take 1 ++ (if (digits.drop 1).isEmpty then [] else '.' :: digits.drop 1) ++
      exponentText (point - 1)

def magnitudeText : Magnitude → List Char
  | .infinite => ['i', 'n', 'f']
  | .undefined => ['n', 'a', 'n']
  | .finite mantissa exponent =>
      if mantissa = 0 then ['0', '.', '0']
      else
        let shortest := (Rounding.ofFinite mantissa exponent).shortest
        let written := Nat.toDigits 10 shortest.digits
        layout (dropZeros written) (shortest.exponent + written.length)

def floatText (x : Float) : String :=
  let b := Binary64.ofFloat x
  let sign := if b.negative && b.magnitude != .undefined then ['-'] else []
  String.ofList (sign ++ magnitudeText b.magnitude)

end AppSpec.Decimal
