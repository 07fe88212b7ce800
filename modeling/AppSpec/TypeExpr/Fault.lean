import AppSpec.TypeExpr.Literal

/-!
What can be wrong with the text of a type: faults, which leave no type at all, and issues, which
leave the type without the part in question. Either stands where so many characters are left.
-/

namespace AppSpec

inductive Expecting where
  | closing (opener : String) (openerLeft : Nat)
  | fieldType (name : String)
  deriving DecidableEq, Repr

inductive TypeFaultKind where
  | emptyText
  | unexpected (found : Option Char)
  | tooDeep (limit : Int)
  | listTooDeep (limit : Int)
  | expectedTypeName (found : Option Char)
  | expectedCharacter (c : Char) (context : Expecting) (found : Option Char)
  | takesNoArguments (name : String)
  | requiresArguments (name : String)
  | expectedEntityName (found : Option Char)
  | argumentCount (name : String) (keyed : Bool) (count : Nat)
  | expectedFieldName (found : Option Char)
  | duplicateField (name : String)
  | unterminatedEnumText
  | expectedEnumValue (found : Option Char)
  | invalidEnumValue (value : String)
  deriving DecidableEq, Repr

structure TypeFault where
  kind : TypeFaultKind
  left : Nat
  deriving DecidableEq, Repr

inductive TypeIssueKind where
  | unopenedBlock
  | unclosedBlock
  | duplicateEnumValue (value : String)
  | expectedConstraintName (found : Option Char)
  | constraintFault (name : String) (fault : TypeFaultKind)
  | notLiteral (name : String)
  | unexpectedInBlock (found : Option Char)
  deriving DecidableEq, Repr

structure TypeIssue where
  kind : TypeIssueKind
  left : Nat
  deriving DecidableEq, Repr

/-- Why reading a type stops: a fault of the text, or an integer that is too long to be read. -/
inductive TypeStop where
  | fault (f : TypeFault)
  | failure (f : Failure)

/-- The column of a place where `left` of `total` characters are left, counted from one. -/
def columnAt (total left : Nat) : Nat := total - left + 1

def describeFound : Option Char → String
  | none => "end of input"
  | some c => "'" ++ String.singleton c ++ "'"

namespace Expecting

def text (total : Nat) : Expecting → String
  | .closing opener openerLeft =>
      "to close '" ++ opener ++ "[' opened at column " ++ toString (columnAt total openerLeft)
  | .fieldType name => "after object field '" ++ name ++ "'"

end Expecting

namespace TypeFaultKind

def message (total : Nat) : TypeFaultKind → String
  | .emptyText => "empty type expression"
  | .unexpected found => "unexpected character " ++ describeFound found
  | .tooDeep limit => "type expression nested deeper than " ++ toString limit ++ " levels"
  | .listTooDeep limit => "list literal nested deeper than " ++ toString limit ++ " levels"
  | .expectedTypeName found => "expected a type name, found " ++ describeFound found
  | .expectedCharacter c context found =>
      "expected '" ++ String.singleton c ++ "' " ++ context.text total ++ ", found " ++
        describeFound found
  | .takesNoArguments name => "'" ++ name ++ "' does not take type arguments"
  | .requiresArguments name => "'" ++ name ++ "' requires arguments in brackets"
  | .expectedEntityName found =>
      "expected an entity name in reference[...], found " ++ describeFound found
  | .argumentCount name keyed count =>
      "'" ++ name ++ "' requires " ++
        (if keyed then "key and value types" else "exactly one type argument") ++ ", got " ++
        toString count ++ " argument(s)"
  | .expectedFieldName found =>
      "expected a field name in object[...], found " ++ describeFound found
  | .duplicateField name => "duplicate object field '" ++ name ++ "'"
  | .unterminatedEnumText => "unterminated string in enum[...]"
  | .expectedEnumValue found => "expected an enum value, found " ++ describeFound found
  | .invalidEnumValue value => "invalid enum value '" ++ value ++ "'"

def suggestion : TypeFaultKind → Option String
  | .takesNoArguments _ =>
      some "Only enum, array, map, optional, object and reference take arguments"
  | .requiresArguments name => some ("Write " ++ name ++ "[...]")
  | .invalidEnumValue _ => some "Quote values containing spaces or symbols"
  | _ => none

end TypeFaultKind

namespace TypeIssueKind

def message (total : Nat) : TypeIssueKind → String
  | .unopenedBlock => "unbalanced '\x7d' in constraint block"
  | .unclosedBlock => "unbalanced '\x7b' in constraint block"
  | .duplicateEnumValue value => "duplicate enum value '" ++ value ++ "'"
  | .expectedConstraintName found => "expected a constraint name, found " ++ describeFound found
  | .constraintFault name fault => "constraint '" ++ name ++ "': " ++ fault.message total
  | .notLiteral name => "constraint '" ++ name ++ "' must be a literal value"
  | .unexpectedInBlock found =>
      "unexpected character " ++ describeFound found ++ " in constraint block"

def suggestion : TypeIssueKind → Option String
  | .unclosedBlock => some "Close the constraint block with '\x7d'"
  | .notLiteral _ =>
      some "Use a number, quoted string, true/false, null or a list of literals"
  | .constraintFault _ fault => fault.suggestion
  | _ => none

end TypeIssueKind

end AppSpec
