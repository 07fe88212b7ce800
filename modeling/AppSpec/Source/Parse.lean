import AppSpec.Source.Format
import AppSpec.Yaml.Load

/-!
Parsing the text of a document: it is loaded in its format, and what is loaded is validated.
-/

namespace AppSpec

structure ParseResult where
  document : DocumentModel
  diagnostics : List Diagnostic

namespace ParseResult

def isSuccess (r : ParseResult) : Bool := !Diagnostic.anyBlocking r.diagnostics

def errors (r : ParseResult) : List String :=
  (r.diagnostics.filter Diagnostic.isBlocking).map Diagnostic.text

def warnings (r : ParseResult) : List String :=
  (r.diagnostics.filter fun d => !d.isBlocking).map Diagnostic.text

def rejected (d : Diagnostic) : ParseResult := ⟨{}, [d]⟩

def ofValidation (loading : List Diagnostic) (v : ValidationResult) : ParseResult :=
  ⟨v.document, Diagnostic.sorted (loading ++ v.diagnostics)⟩

end ParseResult

namespace Json

def faultDiagnostic (cs : List Char) (f : Fault) : Diagnostic :=
  let line := f.line cs
  let column := f.column cs
  (Diagnostic.fatalSyntax "" ("Invalid JSON syntax at line " ++ toString line ++ ", column " ++
    toString column ++ ": " ++ f.cause.message)).placed line column

def parse (s : Settings) (cs : List Char) : Except Failure ParseResult :=
  match read cs with
  | .ok (v, repeated) => do
      return .ofValidation (repeated.map (Diagnostic.duplicateKey "")) (← Document.validate s v)
  | .error (.fault f) => .ok (.rejected (faultDiagnostic cs f))
  | .error (.failure f) => .error f

end Json

namespace Yaml

def stopDiagnostic (cs : List Char) (stop : Stop) : Diagnostic :=
  let d := Diagnostic.fatalSyntax "" ("Invalid YAML syntax: " ++ stop.text cs)
  match stop.mark? with
  | some m => d.placed (m.line + 1) (m.column + 1)
  | none => d

def parse (s : Settings) (cs : List Char) : Except Failure ParseResult :=
  match load cs with
  | .ok l => do
      return .ofValidation l.repeated (← Document.validateGraph s l.graph l.positions)
  | .error (.failure f) => .error f
  | .error stop => .ok (.rejected (stopDiagnostic cs stop))

def isReadable (cs : List Char) : Except Failure Bool :=
  match load cs with
  | .ok _ => .ok true
  | .error (.failure f) => .error f
  | .error _ => .ok false

end Yaml

namespace ParserKind

def parse (s : Settings) (cs : List Char) : ParserKind → Except Failure ParseResult
  | .json => Json.parse s cs
  | .yaml => Yaml.parse s cs

def isReadable (cs : List Char) : ParserKind → Except Failure Bool
  | .json => Json.isReadable cs
  | .yaml => Yaml.isReadable cs

end ParserKind

namespace Document

/-- The name of the parser for a text: the one given, or that of the format it is in. -/
def parserName (process : Settings) (content : String) : Option String → Except Failure String
  | none => (ParserKind.detect process content).map ParserKind.label
  | some name =>
      if name.isEmpty then (ParserKind.detect process content).map ParserKind.label
      else .ok name

/-- Parses a text under its own settings; its format is found under those of the process. -/
def parse (process s : Settings) (content : String) (parser : Option String) :
    Except Failure ParseResult := do
  if Text.isAllBlank content then
    return .rejected (.fatalSyntax "" "Empty DSL content provided")
  else
    match ParserKind.named (← parserName process content parser) with
    | .ok kind => kind.parse s content.toList
    | .error f => return .rejected (.fatalSyntax "" f.message)

/-- Whether a text can be read by its parser; an unreadable value in it is no failure. -/
def isReadable (process : Settings) (content : String) (parser : Option String) :
    Except Failure Bool := do
  if Text.isAllBlank content then return false
  else
    match ParserKind.named (← parserName process content parser) with
    | .error _ => return false
    | .ok kind =>
        match kind.isReadable content.toList with
        | .ok readable => return readable
        | .error f => if f.isUnreadable then return false else throw f

end Document

end AppSpec
