import AppSpec.Diagnostic
import AppSpec.Named
import AppSpec.Value.Integer

/-!
Settings: their fields, and how they are read from given values and from environment variables. A
given value goes before a variable, and a variable before the default.
-/

namespace AppSpec

inductive Environment where
  | development
  | testing
  | production
  deriving DecidableEq, Repr

inductive LogLevel where
  | debug
  | info
  | warning
  | error
  | critical
  deriving DecidableEq, Repr

inductive ParserKind where
  | yaml
  | json
  deriving DecidableEq, Repr

namespace Environment

def label : Environment → String
  | .development => "development"
  | .testing => "testing"
  | .production => "production"

def ofLabel? (s : String) : Option Environment :=
  [development, testing, production].find? fun e => e.label == s

end Environment

namespace LogLevel

def label : LogLevel → String
  | .debug => "DEBUG"
  | .info => "INFO"
  | .warning => "WARNING"
  | .error => "ERROR"
  | .critical => "CRITICAL"

/-- The upper case of the letters that level names are made of; a dotless i is one of them. -/
def upper (c : Char) : Char := if c = 'ı' then 'I' else c.toUpper

def ofText? (s : String) : Option LogLevel :=
  let upper := String.ofList (s.toList.map upper)
  [debug, info, warning, error, critical].find? fun l => l.label == upper

end LogLevel

namespace ParserKind

def label : ParserKind → String
  | .yaml => "yaml"
  | .json => "json"

def ofLabel? (s : String) : Option ParserKind := [yaml, json].find? fun p => p.label == s

def ofText? (s : String) : Option ParserKind := ofLabel? s.toLower

end ParserKind

structure Settings where
  appName : String := "LayeredDSL Validator"
  appVersion : String := "1.0.0"
  environment : Environment := .development
  debug : Bool := false
  logLevel : LogLevel := .info
  logFile : Option String := none
  defaultParser : ParserKind := .yaml
  maxTypeNesting : Nat := 128
  maxTypeNesting_pos : 0 < maxTypeNesting := by decide
  unmappedSeverity : Severity := .warning
  requireMappingEntries : Bool := true
  detectEntityCycles : Bool := true
  maxSuggestions : Nat := 5

namespace Settings

def typeLimit (s : Settings) : Int := s.maxTypeNesting

def variablePrefix : String := "layered_dsl_"

def fieldNames : List String :=
  ["app_name", "app_version", "environment", "debug", "log_level", "log_file", "default_parser",
    "max_type_nesting", "unmapped_operation_severity", "require_mapping_entries",
    "detect_entity_cycles", "max_suggestions"]

def trueWords : List String := ["1", "on", "t", "true", "y", "yes"]

def falseWords : List String := ["0", "off", "f", "false", "n", "no"]

def readBool : Value → Option Bool
  | .bool b => some b
  | .int n => if n = 0 then some false else if n = 1 then some true else none
  | .float x =>
      if Decimal.toInt? x = some 0 then some false
      else if Decimal.toInt? x = some 1 then some true
      else none
  | .str s =>
      if trueWords.contains s.toLower then some true
      else if falseWords.contains s.toLower then some false
      else none
  | _ => none

def readText : Value → Option String := Value.str?

def pathPieces (cs : List Char) : List String :=
  ((String.ofList cs).splitOn "/").filter fun piece => piece != "" && piece != "."

def filePath (s : String) : String :=
  let cs := s.toList
  let slashes := (cs.takeWhile (· == '/')).length
  let root := if slashes = 0 then "" else if slashes = 2 then "//" else "/"
  let path := root ++ "/".intercalate (pathPieces cs)
  if path.isEmpty then "." else path

def readFile : Value → Option (Option String)
  | .null => some none
  | .str s => some (some (filePath s))
  | _ => none

def readSeverity (v : Value) : Option Severity :=
  (v.str?.bind fun s => Severity.ofLabel? s.toLower).filter (· != .fatal)

/-- A field as it was read, or its name where its value is refused. -/
structure Reading (α : Type) where
  value : α
  refused : List String

def reading {α : Type} (given : Named Value) (name : String) (default : α)
    (read : Value → Option α) : Reading α :=
  match given.get? name with
  | none => ⟨default, []⟩
  | some v =>
      match read v with
      | some a => ⟨a, []⟩
      | none => ⟨default, [name]⟩

def readAbove (least : Int) (v : Value) : Option Nat :=
  v.integer?.bind fun n => if least ≤ n then some n.toNat else none

/-- Settings from the values of their fields, or the names of all fields that are refused. -/
def ofValues (given : Named Value) : Except (List String) Settings :=
  let appName := reading given "app_name" ({} : Settings).appName readText
  let appVersion := reading given "app_version" ({} : Settings).appVersion readText
  let environment := reading given "environment" .development
    fun v => v.str?.bind Environment.ofLabel?
  let debug := reading given "debug" false readBool
  let logLevel := reading given "log_level" .info fun v => v.str?.bind LogLevel.ofText?
  let logFile := reading given "log_file" none readFile
  let defaultParser := reading given "default_parser" .yaml fun v => v.str?.bind ParserKind.ofText?
  let nesting := reading given "max_type_nesting" 128 (readAbove 1)
  let severity := reading given "unmapped_operation_severity" .warning readSeverity
  let mapping := reading given "require_mapping_entries" true readBool
  let cycles := reading given "detect_entity_cycles" true readBool
  let suggestions := reading given "max_suggestions" 5 (readAbove 0)
  let unknown := given.keys.filter fun name => !fieldNames.contains name
  let refused := appName.refused ++ appVersion.refused ++ environment.refused ++ debug.refused ++
    logLevel.refused ++ logFile.refused ++ defaultParser.refused ++ nesting.refused ++
    severity.refused ++ mapping.refused ++ cycles.refused ++ suggestions.refused ++ unknown
  if h : 0 < nesting.value ∧ refused = [] then
    .ok
      { appName := appName.value, appVersion := appVersion.value, environment := environment.value
        debug := debug.value, logLevel := logLevel.value, logFile := logFile.value
        defaultParser := defaultParser.value, maxTypeNesting := nesting.value
        maxTypeNesting_pos := h.1, unmappedSeverity := severity.value
        requireMappingEntries := mapping.value, detectEntityCycles := cycles.value
        maxSuggestions := suggestions.value }
  else .error (refused.mergeSort fun a b => decide (a ≤ b))

/-- The fields that variables set: those with the settings' own prefix, whatever their case. The
last of several variables for one field counts. -/
def ofVariables (environment : Named String) : Named Value :=
  Named.setAll [] (environment.filterMap fun v =>
    (fieldNames.find? fun name => variablePrefix ++ name == v.1.toLower).map (·, .str v.2))

def read (given : Named Value) (environment : Named String) : Except (List String) Settings :=
  ofValues (given ++ (ofVariables environment).filter fun v => !given.has v.1)

end Settings

end AppSpec
