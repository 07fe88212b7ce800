import AppSpec.Json.Reader
import AppSpec.Settings.Basic

/-!
In which format a document is written.
-/

namespace AppSpec

namespace Json

def isReadable (cs : List Char) : Except Failure Bool :=
  match read cs with
  | .ok _ => .ok true
  | .error (.fault _) => .ok false
  | .error (.failure f) => .error f

end Json

namespace ParserKind

def opensJson : List Char → Bool
  | '\x7b' :: _ => true
  | '[' :: _ => true
  | _ => false

/-- Whether a text starts as YAML does, or has a colon in its first line. -/
def looksYaml (cs : List Char) : Bool :=
  "---".toList.isPrefixOf cs || "- ".toList.isPrefixOf cs ||
    (cs.takeWhile fun c => c != '\n').contains ':'

/-- The format of a text, by its first characters if they show it. -/
def detect (s : Settings) (content : String) : Except Failure ParserKind := do
  let cs := Text.trim content.toList
  if opensJson cs then return .json
  else if looksYaml cs then return .yaml
  else if ← Json.isReadable cs then return .json
  else return s.defaultParser

def named (name : String) : Except Failure ParserKind :=
  match ofLabel? name with
  | some kind => .ok kind
  | none => .error (.unknownParser name)

end ParserKind

end AppSpec
