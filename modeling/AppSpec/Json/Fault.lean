import AppSpec.Failure

/-!
What makes a text no JSON document, and where in the text it shows.
-/

namespace AppSpec.Json

inductive Cause where
  | byteOrderMark
  | value
  | name
  | colon
  | comma
  | extra
  | unclosedText
  | controlCharacter
  | escape
  | codePoint
  deriving DecidableEq, Repr

def Cause.message : Cause → String
  | .byteOrderMark => "Unexpected UTF-8 BOM (decode using utf-8-sig)"
  | .value => "Expecting value"
  | .name => "Expecting property name enclosed in double quotes"
  | .colon => "Expecting ':' delimiter"
  | .comma => "Expecting ',' delimiter"
  | .extra => "Extra data"
  | .unclosedText => "Unterminated string starting at"
  | .controlCharacter => "Invalid control character at"
  | .escape => "Invalid \\escape"
  | .codePoint => "Invalid \\uXXXX escape"

/-- A fault, and how many characters are left from its place on. -/
structure Fault where
  cause : Cause
  left : Nat
  deriving DecidableEq, Repr

/-- Why a text is not read to its end. -/
inductive Stop where
  | fault (f : Fault)
  | failure (f : Failure)
  deriving DecidableEq, Repr

namespace Fault

def before (f : Fault) (text : List Char) : List Char := text.take (text.length - f.left)

def line (f : Fault) (text : List Char) : Nat := (f.before text).count '\n' + 1

def column (f : Fault) (text : List Char) : Nat :=
  ((f.before text).reverse.takeWhile fun c => c != '\n').length + 1

theorem one_le_line (f : Fault) (text : List Char) : 1 ≤ f.line text := by
  simp [line]

theorem one_le_column (f : Fault) (text : List Char) : 1 ≤ f.column text := by
  simp [column]

end Fault

end AppSpec.Json
