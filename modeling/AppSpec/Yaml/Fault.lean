import AppSpec.Failure
import AppSpec.Text.Quoted
import AppSpec.Yaml.Cursor

/-!
What makes a text no YAML document: what was being read, what is wrong with it, and where. A fault
is told with the lines of the text it stands in.
-/

namespace AppSpec.Yaml

inductive Activity where
  | nextToken
  | simpleKey
  | directive
  | directiveUri
  | anchor
  | alias
  | tag
  | tagUri
  | blockScalar
  | quotedScalar
  | doubleQuotedScalar
  | node
  | blockNode
  | flowNode
  | blockSequence
  | blockMapping
  | flowSequence
  | flowMapping
  | firstOccurrence (anchor : String)
  | singleDocument
  | mapping
  | orderedMap
  | pairs
  deriving DecidableEq, Repr

namespace Activity

def text : Activity → String
  | .nextToken => "while scanning for the next token"
  | .simpleKey => "while scanning a simple key"
  | .directive => "while scanning a directive"
  | .directiveUri => "while parsing a directive"
  | .anchor => "while scanning an anchor"
  | .alias => "while scanning an alias"
  | .tag => "while scanning a tag"
  | .tagUri => "while parsing a tag"
  | .blockScalar => "while scanning a block scalar"
  | .quotedScalar => "while scanning a quoted scalar"
  | .doubleQuotedScalar => "while scanning a double-quoted scalar"
  | .node => "while parsing a node"
  | .blockNode => "while parsing a block node"
  | .flowNode => "while parsing a flow node"
  | .blockSequence => "while parsing a block collection"
  | .blockMapping => "while parsing a block mapping"
  | .flowSequence => "while parsing a flow sequence"
  | .flowMapping => "while parsing a flow mapping"
  | .firstOccurrence name =>
      "found duplicate anchor " ++ Text.quoted name ++ "; first occurrence"
  | .singleDocument => "expected a single document in the stream"
  | .mapping => "while constructing a mapping"
  | .orderedMap => "while constructing an ordered map"
  | .pairs => "while constructing pairs"

end Activity

inductive Wanted where
  | nameCharacter
  | digit
  | digitOrPoint
  | digitOrSpace
  | space
  | commentOrBreak
  | exclamation
  | closingAngle
  | uri
  | uriEscape
  | hexEscape (digits : Nat)
  | scalarIndicators
  deriving DecidableEq, Repr

namespace Wanted

def text : Wanted → String
  | .nameCharacter => "alphabetic or numeric character"
  | .digit => "a digit"
  | .digitOrPoint => "a digit or '.'"
  | .digitOrSpace => "a digit or ' '"
  | .space => "' '"
  | .commentOrBreak => "a comment or a line break"
  | .exclamation => "'!'"
  | .closingAngle => "'>'"
  | .uri => "URI"
  | .uriEscape => "URI escape sequence of 2 hexadecimal numbers"
  | .hexEscape digits => "escape sequence of " ++ toString digits ++ " hexadecimal numbers"
  | .scalarIndicators => "chomping or indentation indicators"

end Wanted

inductive Problem where
  | wanted (what : Wanted) (found : Char)
  | noToken (found : Char)
  | noColon
  | entryNotAllowed
  | keyNotAllowed
  | valueNotAllowed
  | zeroIndentation
  | unknownEscape (found : Char)
  | endOfStream
  | documentMarker
  | undecodable (reason : String)
  | noDocumentStart (found : String)
  | repeatedVersion
  | otherVersion
  | repeatedHandle (handle : String)
  | unknownHandle (handle : String)
  | noContent (found : String)
  | noBlockEnd (found : String)
  | noSequenceEnd (found : String)
  | noMappingEnd (found : String)
  | unknownAlias (anchor : String)
  | secondOccurrence
  | anotherDocument
  | recursiveAlias (path : String)
  | wrongKind (kind found : String)
  | noSequence (found : String)
  | noSingleton (found : String)
  | notSingle (count : Nat)
  | notMergeable (found : String)
  | itemNotMergeable (found : String)
  | unhashableKey
  | unknownTag (tag : String)
  | notAscii (reason : String)
  | notBase64 (reason : String)
  deriving DecidableEq, Repr

namespace Problem

def shownChar (c : Char) : String := Text.quoted (String.singleton c)

def text : Problem → String
  | .wanted what found => "expected " ++ what.text ++ ", but found " ++ shownChar found
  | .noToken found => "found character " ++ shownChar found ++ " that cannot start any token"
  | .noColon => "could not find expected ':'"
  | .entryNotAllowed => "sequence entries are not allowed here"
  | .keyNotAllowed => "mapping keys are not allowed here"
  | .valueNotAllowed => "mapping values are not allowed here"
  | .zeroIndentation => "expected indentation indicator in the range 1-9, but found 0"
  | .unknownEscape found => "found unknown escape character " ++ shownChar found
  | .endOfStream => "found unexpected end of stream"
  | .documentMarker => "found unexpected document separator"
  | .undecodable reason => reason
  | .noDocumentStart found => "expected '<document start>', but found " ++ Text.quoted found
  | .repeatedVersion => "found duplicate YAML directive"
  | .otherVersion => "found incompatible YAML document (version 1.* is required)"
  | .repeatedHandle handle => "duplicate tag handle " ++ Text.quoted handle
  | .unknownHandle handle => "found undefined tag handle " ++ Text.quoted handle
  | .noContent found => "expected the node content, but found " ++ Text.quoted found
  | .noBlockEnd found => "expected <block end>, but found " ++ Text.quoted found
  | .noSequenceEnd found => "expected ',' or ']', but got " ++ Text.quoted found
  | .noMappingEnd found => "expected ',' or '\x7d', but got " ++ Text.quoted found
  | .unknownAlias anchor => "found undefined alias " ++ Text.quoted anchor
  | .secondOccurrence => "second occurrence"
  | .anotherDocument => "but found another document"
  | .recursiveAlias path => "recursive alias at '" ++ path ++ "' refers to an enclosing node"
  | .wrongKind kind found => "expected a " ++ kind ++ " node, but found " ++ found
  | .noSequence found => "expected a sequence, but found " ++ found
  | .noSingleton found => "expected a mapping of length 1, but found " ++ found
  | .notSingle count => "expected a single mapping item, but found " ++ toString count ++ " items"
  | .notMergeable found =>
      "expected a mapping or list of mappings for merging, but found " ++ found
  | .itemNotMergeable found => "expected a mapping for merging, but found " ++ found
  | .unhashableKey => "found unhashable key"
  | .unknownTag tag => "could not determine a constructor for the tag " ++ Text.quoted tag
  | .notAscii reason => "failed to convert base64 data into ascii: " ++ reason
  | .notBase64 reason => "failed to decode base64 data: " ++ reason

end Problem

/-- The level at which a fault comes up: characters make tokens, tokens make nodes, nodes refer to
each other by anchors, and nodes make values. -/
inductive Level where
  | token
  | grammar
  | anchor
  | value
  | nesting
  deriving DecidableEq, Repr

structure Fault where
  level : Level
  activity : Option Activity
  since : Option Mark
  problem : Problem
  mark : Mark
  deriving DecidableEq, Repr

inductive Stop where
  | unprintable (code index : Nat)
  | fault (f : Fault)
  | failure (f : Failure)
  deriving DecidableEq, Repr

/-- The part of a line told with a fault: so much of it to either side, and less where more follows. -/
structure Excerpt where
  reach : Nat
  kept : Nat

namespace Excerpt

def standard : Excerpt := ⟨36, 32⟩

def indentation : List Char := List.replicate 4 ' '

def gap : List Char := " ... ".toList

def lineOf (cs : List Char) : List Char := cs.takeWhile fun c => !isBreak c

/-- What is told of a line to one side, and whether something is left out. -/
def cut (e : Excerpt) (cs : List Char) : List Char × List Char :=
  if e.reach < cs.length then (cs.take e.kept, gap) else (cs, [])

def text (e : Excerpt) (source : List Char) (index : Nat) : String :=
  let (left, head) := e.cut (lineOf (source.take index).reverse)
  let (right, tail) := e.cut (lineOf (source.drop index))
  String.ofList (indentation ++ head ++ left.reverse ++ right ++ tail ++ '\n' :: indentation ++
    List.replicate (left.length + head.length) ' ' ++ ['^'])

end Excerpt

def sourceName : String := "\"<unicode string>\""

def Mark.text (source : List Char) (m : Mark) : String :=
  "  in " ++ sourceName ++ ", line " ++ toString (m.line + 1) ++ ", column " ++
    toString (m.column + 1) ++ ":\n" ++ Excerpt.standard.text source m.index

namespace Fault

def origin? (f : Fault) : Option Mark :=
  f.since.filter fun m => !(m.line == f.mark.line && m.column == f.mark.column)

def text (source : List Char) (f : Fault) : String :=
  "\n".intercalate ((f.activity.map Activity.text).toList ++
    (f.origin?.map (Mark.text source)).toList ++ [f.problem.text, f.mark.text source])

end Fault

namespace Stop

def mark? : Stop → Option Mark
  | .fault f => some f.mark
  | _ => none

def codeText (code : Nat) : String :=
  let digits := Nat.toDigits 16 code
  String.ofList (List.replicate (4 - digits.length) '0' ++ digits)

def text (source : List Char) : Stop → String
  | .unprintable code index =>
      "unacceptable character #x" ++ codeText code ++ ": special characters are not allowed\n  in " ++
        sourceName ++ ", position " ++ toString index
  | .fault f => f.text source
  | .failure f => f.message

end Stop

def stopIn {α : Type} (level : Level) (activity : Activity) (since : Mark) (problem : Problem)
    (mark : Mark) : Except Stop α :=
  .error (.fault ⟨level, some activity, some since, problem, mark⟩)

def stopAt {α : Type} (level : Level) (problem : Problem) (mark : Mark) : Except Stop α :=
  .error (.fault ⟨level, none, none, problem, mark⟩)

end AppSpec.Yaml
