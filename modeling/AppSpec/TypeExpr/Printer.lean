import AppSpec.TypeExpr.Basic
import AppSpec.TypeExpr.Literal

/-!
The canonical text of type expressions. A text literal stands without quotes exactly where it reads
back as itself.
-/

namespace AppSpec

namespace Literal

def quoteChar (c : Char) : List Char :=
  if c = '\\' then ['\\', '\\'] else if c = '"' then ['\\', '"'] else [c]

def quote (cs : List Char) : List Char := '"' :: (cs.flatMap quoteChar ++ ['"'])

def separated : List (List Char) → List Char
  | [] => []
  | [item] => item
  | item :: items => item ++ ',' :: ' ' :: separated items

def writeText (s : String) : Except Failure (List Char) :=
  let cs := s.toList
  (read cs).map fun
    | some (.str _) => cs
    | _ => quote cs

def writeInt (n : Int) : Except Failure (List Char) :=
  if Text.integerTooLong n then .error .integerTooLong else .ok (toString n).toList

mutual

def write : Value → Except Failure (List Char)
  | .bool true => .ok ['t', 'r', 'u', 'e']
  | .bool false => .ok ['f', 'a', 'l', 's', 'e']
  | .null => .ok ['n', 'u', 'l', 'l']
  | .int n => writeInt n
  | .float x => .ok (Decimal.floatText x).toList
  | .list items => do return '[' :: (separated (← writeItems items) ++ [']'])
  | .str s => writeText s
  | v => if v.hasLongInteger then .error .integerTooLong else writeText v.text

def writeItems : List Value → Except Failure (List (List Char))
  | [] => .ok []
  | item :: items => do return (← write item) :: (← writeItems items)

end

def writeEnumValue (s : String) : List Char :=
  let cs := s.toList
  if isEnumWord (upToLineEnd cs) then cs else quote cs

end Literal

namespace TypeExpr

def bracketed (name : String) (inner : List Char) : List Char :=
  name.toList ++ '[' :: (inner ++ [']'])

def writeConstraints : Constraints → Except Failure (List (List Char))
  | [] => .ok []
  | (key, value) :: rest => do
      return (key.toList ++ ':' :: ' ' :: (← Literal.write value)) :: (← writeConstraints rest)

def withBlock (text : List Char) (constraints : Constraints) : Except Failure (List Char) := do
  if constraints.isEmpty then return text
  else
    return text ++ '\x7b' :: (Literal.separated (← writeConstraints constraints) ++ ['\x7d'])

mutual

def chars : TypeExpr → Except Failure (List Char)
  | .primitive name cs => withBlock name.toList cs
  | .custom name cs => withBlock name.toList cs
  | .reference target cs => withBlock (bracketed "reference" target.toList) cs
  | .enum values cs =>
      withBlock (bracketed "enum" (Literal.separated (values.map Literal.writeEnumValue))) cs
  | .array element cs => do withBlock (bracketed "array" (← element.chars)) cs
  | .map key value cs => do
      withBlock (bracketed "map" (Literal.separated [← key.chars, ← value.chars])) cs
  | .optional inner cs => do withBlock (bracketed "optional" (← inner.chars)) cs
  | .object fields cs => do
      withBlock (bracketed "object" (Literal.separated (← fieldChars fields))) cs

def fieldChars : List (String × TypeExpr) → Except Failure (List (List Char))
  | [] => .ok []
  | (name, t) :: fields => do
      return (name.toList ++ ':' :: ' ' :: (← t.chars)) :: (← fieldChars fields)

end

def text (t : TypeExpr) : Except Failure String := t.chars.map String.ofList

end TypeExpr

end AppSpec
