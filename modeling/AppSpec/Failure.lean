/-!
What stops the work on a document altogether, where no diagnostic can stand for it.
-/

namespace AppSpec

inductive Failure where
  /-- An integer has more digits than are read or written. -/
  | integerTooLong
  /-- A record is given a member of another kind than it holds. -/
  | wrongMember
  /-- The rule for the items of a list meets a mapping with an entry named `type`. -/
  | itemRuleOnTypedMapping
  /-- A shape is checked against something that is no mapping. -/
  | notMapping
  | frozenTable
  | unfrozenTable
  | unknownNamespace
  | emptyCycle
  | unknownParser (name : String)
  | unknownEntry
  /-- An escape gives a code beyond the last character. -/
  | noSuchCharacter
  /-- An escape gives a code beyond what a word holds. -/
  | codeTooLarge
  /-- A text tagged as a truth value names none. -/
  | noTruthValue
  /-- A text tagged as a number is empty. -/
  | emptyNumber
  /-- A text tagged as a number does not write one. -/
  | noNumber
  /-- A number in parts is larger than any real. -/
  | numberTooLarge
  /-- A text tagged as a date or a time does not write one. -/
  | noTimestamp
  /-- A collection is tagged as a date or a time. -/
  | collectionAsTimestamp
  /-- A date, a time of day or an offset is out of its range. -/
  | impossibleTimestamp
  /-- A scalar is looked for in a mapping that contains itself. -/
  | endlessScalar
  deriving DecidableEq, Repr

namespace Failure

def message : Failure → String
  | .frozenTable => "Symbol table is frozen; definitions can no longer be added"
  | .unfrozenTable => "References can only be resolved against a frozen symbol table"
  | .unknownParser name => "Unsupported parser type: " ++ name
  | _ => ""

def isUnreadable : Failure → Bool
  | .integerTooLong => true
  | .noSuchCharacter => true
  | .noNumber => true
  | .impossibleTimestamp => true
  | _ => false

end Failure

end AppSpec
