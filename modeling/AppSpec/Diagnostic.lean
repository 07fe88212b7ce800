import AppSpec.Path
import AppSpec.Text.Similar

/-!
Diagnostics: what is wrong, how badly, and where. Their order follows the layers of a document.
-/

namespace AppSpec

inductive Category where
  | syntaxError
  | schema
  | reference
  | consistency
  | generation
  deriving DecidableEq, Repr

inductive Severity where
  | fatal
  | error
  | warning
  | info
  deriving DecidableEq, Repr

structure Location where
  line : Option Int := none
  column : Option Int := none
  path : String := ""
  deriving DecidableEq, Repr

structure Diagnostic where
  category : Category
  severity : Severity
  location : Location := {}
  message : String
  suggestion : Option String := none
  deriving DecidableEq, Repr

namespace Category

def label : Category → String
  | .syntaxError => "Syntax"
  | .schema => "Schema"
  | .reference => "Reference"
  | .consistency => "Consistency"
  | .generation => "Generation"

def all : List Category := [.syntaxError, .schema, .reference, .consistency, .generation]

def ofLabel? (s : String) : Option Category := all.find? fun c => c.label == s

theorem ofLabel?_label (c : Category) : ofLabel? c.label = some c := by
  cases c <;> decide

end Category

namespace Severity

def label : Severity → String
  | .fatal => "fatal"
  | .error => "error"
  | .warning => "warning"
  | .info => "info"

def all : List Severity := [.fatal, .error, .warning, .info]

def ofLabel? (s : String) : Option Severity := all.find? fun c => c.label == s

theorem ofLabel?_label (s : Severity) : ofLabel? s.label = some s := by
  cases s <;> decide

def isBlocking : Severity → Bool
  | .fatal => true
  | .error => true
  | _ => false

end Severity

def layerOrder : List String :=
  ["project", "domain", "logic", "components", "workflow", "ui", "security", "infrastructure",
    "integrations", "mapping", "metadata"]

/-- The place of a path's layer in the order of the layers; the document itself comes before them
all, and any other head after. -/
def layerRank (path : String) : Int :=
  let head := Path.head path
  if head.isEmpty then -1 else (layerOrder.idxOf head : Nat)

namespace Diagnostic

def make (category : Category) (severity : Severity) (path message : String)
    (suggestion : Option String) : Diagnostic :=
  ⟨category, severity, { path }, message, suggestion⟩

def syntaxError (path message : String) (suggestion : Option String := none) : Diagnostic :=
  make .syntaxError .error path message suggestion

def schemaError (path message : String) (suggestion : Option String := none) : Diagnostic :=
  make .schema .error path message suggestion

def schemaWarning (path message : String) (suggestion : Option String := none) : Diagnostic :=
  make .schema .warning path message suggestion

def referenceError (path message : String) (suggestion : Option String := none) : Diagnostic :=
  make .reference .error path message suggestion

def consistencyError (path message : String) (suggestion : Option String := none) : Diagnostic :=
  make .consistency .error path message suggestion

def consistencyWarning (path message : String) (suggestion : Option String := none) :
    Diagnostic :=
  make .consistency .warning path message suggestion

def fatalSyntax (path message : String) (suggestion : Option String := none) : Diagnostic :=
  make .syntaxError .fatal path message suggestion

def path (d : Diagnostic) : String := d.location.path

def atColumn (d : Diagnostic) (column : Nat) : Diagnostic :=
  { d with location := { d.location with column := some column } }

def isBlocking (d : Diagnostic) : Bool := d.severity.isBlocking

def optionalNumber : Option Int → String
  | none => "None"
  | some n => toString n

def text (d : Diagnostic) : String :=
  let path := if d.path.isEmpty then "<document>" else d.path
  let place :=
    match d.location.line with
    | none => path
    | some line =>
        path ++ " (line " ++ toString line ++ ", column " ++ optionalNumber d.location.column ++ ")"
  let body := d.severity.label ++ " [" ++ d.category.label ++ "] " ++ place ++ ": " ++ d.message
  match d.suggestion with
  | none => body
  | some s => if s.isEmpty then body else body ++ " (" ++ s ++ ")"

def order (d e : Diagnostic) : Ordering :=
  (compare (layerRank d.path) (layerRank e.path)).then <|
    (compare d.path e.path).then <|
      (compare d.category.label e.category.label).then (compare d.message e.message)

def sorted (ds : List Diagnostic) : List Diagnostic :=
  ds.mergeSort fun d e => (order d e).isLE

theorem sorted_perm (ds : List Diagnostic) : (sorted ds).Perm ds := List.mergeSort_perm ds _

def countOf (ds : List Diagnostic) (s : Severity) : Nat := ds.countP fun d => d.severity == s

def anyBlocking (ds : List Diagnostic) : Bool := ds.any isBlocking

end Diagnostic

def didYouMean (name : String) (candidates : List String) : Option String :=
  (Text.closest? name candidates).map fun c => "Did you mean '" ++ c ++ "'?"

end AppSpec
