import AppSpec.Json.Text
import AppSpec.TypeExpr.Literal

/-!
Reading JSON documents. Of members with one name the first is kept; the names of the others are
told, object by object as they close.
-/

namespace AppSpec.Json

def isSpace (c : Char) : Bool := c == ' ' || c == '\t' || c == '\n' || c == '\r'

def skip (cs : List Char) : List Char := cs.dropWhile isSpace

/-- A value, the repeated names of the objects in it, and what is left after it. -/
structure Reading where
  value : Value
  repeated : List String
  rest : List Char

def expecting {α : Type} (cause : Cause) (cs : List Char) : Except Stop α :=
  .error (.fault ⟨cause, cs.length⟩)

def digits (cs : List Char) : List Char := cs.takeWhile Literal.isAsciiDigit

def afterDigits (cs : List Char) : List Char := cs.dropWhile Literal.isAsciiDigit

theorem digits_append_afterDigits (cs : List Char) : digits cs ++ afterDigits cs = cs :=
  List.takeWhile_append_dropWhile

/-- The digits of a whole number: a zero stands alone. -/
def wholeDigits : List Char → List Char × List Char
  | '0' :: rest => (['0'], rest)
  | cs => (digits cs, afterDigits cs)

def decimals : List Char → List Char × List Char
  | '.' :: rest => if (digits rest).isEmpty then ([], '.' :: rest) else (digits rest, afterDigits rest)
  | cs => ([], cs)

def exponent : List Char → Option Int × List Char
  | [] => (none, [])
  | e :: cs =>
      let (negative, rest) := Numeral.splitSign cs
      if (e == 'e' || e == 'E') && !(digits rest).isEmpty then
        (some (Numeral.signed negative (Text.natOfDigits (digits rest))), afterDigits rest)
      else (none, e :: cs)

def numeral (negative : Bool) (whole places : List Char) : Option Int → Numeral
  | some e => .real negative (whole ++ places) (e - places.length)
  | none =>
      if places.isEmpty then .integer negative whole
      else .real negative (whole ++ places) (-places.length)

def number (cs : List Char) : Except Stop Reading := do
  let (negative, unsigned) :=
    match cs with
    | '-' :: rest => (true, rest)
    | cs => (false, cs)
  let (whole, rest) := wholeDigits unsigned
  if whole.isEmpty then expecting .value cs
  else
    let (places, rest) := decimals rest
    let (power, rest) := exponent rest
    match (numeral negative whole places power).scalar with
    | .ok s => .ok ⟨.scalar s, [], rest⟩
    | .error f => .error (.failure f)

def words : List (List Char × Scalar) :=
  [("null".toList, .null), ("true".toList, .bool true), ("false".toList, .bool false),
    ("NaN".toList, .float (0.0 / 0.0)), ("Infinity".toList, .float (1.0 / 0.0)),
    ("-Infinity".toList, .float (-1.0 / 0.0))]

def scalar (cs : List Char) : Except Stop Reading :=
  match words.find? fun w => w.1.isPrefixOf cs with
  | some (word, s) => .ok ⟨.scalar s, [], cs.drop word.length⟩
  | none => number cs

/-- The members that stand first under their names, and the names that stand again. -/
def keepFirst : List (String × Value) → Entries → List String → Entries × List String
  | [], kept, again => (kept, again)
  | (name, value) :: rest, kept, again =>
      if Entries.has kept name then keepFirst rest kept (again ++ [name])
      else keepFirst rest (kept ++ [(.str name, value)]) again

def closeObject (members : List (String × Value)) (repeated : List String) (rest : List Char) :
    Reading :=
  let (kept, again) := keepFirst members [] []
  ⟨.dict kept, repeated ++ again, rest⟩

/-- A member's name and the colon after it. -/
def memberName : List Char → Except Stop (String × List Char)
  | '"' :: cs => do
      let (name, rest) ← text cs
      match skip rest with
      | ':' :: rest => .ok (name, skip rest)
      | rest => expecting .colon rest
  | cs => expecting .name cs

mutual

def value : Nat → List Char → Except Stop Reading
  | 0, cs => expecting .value cs
  | _ + 1, '"' :: cs => do
      let (s, rest) ← text cs
      return ⟨.str s, [], rest⟩
  | steps + 1, '\x7b' :: cs =>
      match skip cs with
      | '\x7d' :: rest => .ok ⟨.dict [], [], rest⟩
      | cs => members steps cs [] []
  | steps + 1, '[' :: cs =>
      match skip cs with
      | ']' :: rest => .ok ⟨.list [], [], rest⟩
      | cs => items steps cs [] []
  | _, cs => scalar cs

def members : Nat → List Char → List (String × Value) → List String → Except Stop Reading
  | 0, cs, _, _ => expecting .name cs
  | steps + 1, cs, done, repeated => do
      let (name, rest) ← memberName cs
      let r ← value steps rest
      let done := done ++ [(name, r.value)]
      let repeated := repeated ++ r.repeated
      match skip r.rest with
      | '\x7d' :: rest => .ok (closeObject done repeated rest)
      | ',' :: rest => members steps (skip rest) done repeated
      | rest => expecting .comma rest

def items : Nat → List Char → List Value → List String → Except Stop Reading
  | 0, cs, _, _ => expecting .value cs
  | steps + 1, cs, done, repeated => do
      let r ← value steps cs
      let done := done ++ [r.value]
      let repeated := repeated ++ r.repeated
      match skip r.rest with
      | ']' :: rest => .ok ⟨.list done, repeated, rest⟩
      | ',' :: rest => items steps (skip rest) done repeated
      | rest => expecting .comma rest

end

def byteOrderMark : Char := '\uFEFF'

/-- Enough steps for a text: each bracket takes two, and each member or item one. -/
def stepsFor (cs : List Char) : Nat := 2 * cs.length + 2

/-- Reads a whole text: its value, and the names that objects in it repeat. -/
def read (cs : List Char) : Except Stop (Value × List String) :=
  if cs.head? == some byteOrderMark then expecting .byteOrderMark cs
  else do
    let r ← value (stepsFor cs) (skip cs)
    match skip r.rest with
    | [] => return (r.value, r.repeated)
    | rest => expecting .extra rest

end AppSpec.Json
