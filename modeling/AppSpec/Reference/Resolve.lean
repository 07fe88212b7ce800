import AppSpec.Members
import AppSpec.Model.Document

/-!
Resolving references against a frozen symbol table. Each reference gives one record, and each
dangling record one diagnostic.
-/

namespace AppSpec

namespace ReferenceKind

/-- What a reference of the kind mentions, in the words of a message. -/
def noun : ReferenceKind → String
  | .type => "type"
  | .relation => "entity"
  | .modifies => "entity"
  | .error => "error"
  | .call => "operation"
  | .onError => "on_error operation"
  | .onTimeout => "on_timeout operation"
  | .responsibility => "operation"
  | .dependency => "component"
  | .resource => "infrastructure resource"
  | .role => "role"
  | .inherits => "role"
  | .action => "operation"
  | .display => "entity"
  | .field => "entity field"
  | .mappingKey => "operation"
  | .mappingTarget => "component or integration"

end ReferenceKind

inductive DanglingCause where
  | undefinedType (name : String)
  | undefined (kind : ReferenceKind) (name : String)
  | undefinedEntity (name : String)
  | noField (entity field : String)
  | undefinedHead (target : String) (spaces : List Namespace) (head : String)
  | noMember (target walked segment : String)

namespace DanglingCause

def message : DanglingCause → String
  | .undefinedType name =>
      "undefined type '" ++ name ++ "' (not a primitive, entity or custom type)"
  | .undefined kind name => "reference to undefined " ++ kind.noun ++ " '" ++ name ++ "'"
  | .undefinedEntity name => "reference to undefined entity '" ++ name ++ "'"
  | .noField entity field => "entity '" ++ entity ++ "' has no field '" ++ field ++ "'"
  | .undefinedHead target spaces head =>
      "mapping target '" ++ target ++ "': undefined " ++
        " or ".intercalate (spaces.map Namespace.noun) ++ " '" ++ head ++ "'"
  | .noMember target walked segment =>
      "mapping target '" ++ target ++ "': '" ++ walked ++ "' has no member '" ++ segment ++ "'"

end DanglingCause

/-- The outcome of a reference; a dangling one comes with its cause and a hint. -/
inductive Resolution where
  | found (space : Namespace)
  | dangling (space : Option Namespace) (cause : DanglingCause) (hint : Option String)

namespace Resolution

def outcome : Resolution → Outcome
  | .found space => .resolved space
  | .dangling space _ _ => .dangling space

def diagnostic? (path : String) : Resolution → Option Diagnostic
  | .found _ => none
  | .dangling _ cause hint => some (.referenceError path cause.message hint)

theorem isSome_diagnostic? (path : String) (r : Resolution) :
    (r.diagnostic? path).isSome = r.outcome.isDangling := by
  cases r <;> rfl

end Resolution

namespace Symbols

def declaring? (t : Symbols) (name : String) (spaces : List Namespace) : Option Namespace :=
  spaces.find? fun ns => t.has ns name

def hint (t : Symbols) (name : String) (spaces : List Namespace) : Option String :=
  didYouMean name (t.namesIn spaces)

def entity? (t : Symbols) (name : String) : Option Entity :=
  match t.lookup? .entity name with
  | some (.entity e) => some e
  | _ => none

def members (t : Symbols) (ns : Namespace) (name : String) : Value :=
  match t.lookup? ns name with
  | some (.component c) => .dict c.exposes
  | some (.integration i) => .dict i.operations
  | _ => .null

end Symbols

namespace Resolve

open Symbols

def nameCause (r : DeferredReference) : DanglingCause :=
  if r.kind = .type then .undefinedType r.name else .undefined r.kind r.name

def byName (t : Symbols) (r : DeferredReference) : Resolution :=
  match declaring? t r.name r.spaces with
  | some ns => .found ns
  | none => .dangling none (nameCause r) (hint t r.name r.spaces)

def splitField (name : String) : String × String :=
  let cs := name.toList
  (String.ofList (cs.takeWhile (· != '.')), String.ofList ((cs.dropWhile (· != '.')).drop 1))

def fieldOf (t : Symbols) (r : DeferredReference) : Resolution :=
  let (entity, field) := splitField r.name
  match entity? t entity with
  | none => .dangling none (.undefinedEntity entity) (hint t entity [.entity])
  | some e =>
      if e.fields.has field then .found .entity
      else .dangling none (.noField entity field) (didYouMean field e.fields.keys)

def splitDots : List Char → List (List Char)
  | [] => [[]]
  | c :: cs =>
      if c = '.' then [] :: splitDots cs
      else
        match splitDots cs with
        | piece :: pieces => (c :: piece) :: pieces
        | [] => [[c]]

def segments (name : String) : List String := (splitDots name.toList).map String.ofList

def layerSpace? (segment : String) : Option Namespace :=
  if segment = "components" then some .component
  else if segment = "integrations" then some .integration
  else none

def startOf (target : String) : List Namespace × List String :=
  match segments target with
  | first :: second :: rest =>
      match layerSpace? first with
      | some ns => ([ns], second :: rest)
      | none => ([.component, .integration], first :: second :: rest)
  | pieces => ([.component, .integration], pieces)

/-- The first segment that is no member of what the segments before it lead to. -/
def missing? : Value → String → List String → Option (String × String × List String)
  | _, _, [] => none
  | .dict entries, walked, segment :: rest =>
      match Entries.text? entries segment with
      | some v => missing? v (walked ++ "." ++ segment) rest
      | none => some (walked, segment, entries.map fun e => e.1.text)
  | _, walked, segment :: _ => some (walked, segment, [])

def target (t : Symbols) (r : DeferredReference) : Resolution :=
  let (spaces, pieces) := startOf r.name
  let head := pieces.headD ""
  match declaring? t head spaces with
  | none => .dangling none (.undefinedHead r.name spaces head) (hint t head spaces)
  | some ns =>
      match missing? (members t ns head) head (pieces.drop 1) with
      | none => .found ns
      | some (walked, segment, candidates) =>
          .dangling (some ns) (.noMember r.name walked segment) (didYouMean segment candidates)

def one (t : Symbols) (r : DeferredReference) : Resolution :=
  match r.kind with
  | .field => fieldOf t r
  | .mappingTarget => target t r
  | _ => byName t r

def record (t : Symbols) (r : DeferredReference) : ReferenceRecord :=
  ⟨r.path, r.name, r.kind, r.spaces, (one t r).outcome⟩

def order (a b : ReferenceRecord) : Ordering :=
  (compare a.path b.path).then <|
    (compare a.name b.name).then (compare a.kind.label b.kind.label)

def errorClash (t : Symbols) (name : String) : Option Diagnostic :=
  (declaring? t name [.entity, .customType, .operation]).map fun ns =>
    .consistencyError ((t.path? .error name).getD "")
      ("error '" ++ name ++ "' is also declared as " ++ ns.noun ++ " (at '" ++
        (t.path? ns name).getD "" ++ "')")
      (some "Give the error a distinct name")

end Resolve

structure ResolvedReferences where
  records : List ReferenceRecord
  diagnostics : List Diagnostic

/-- Resolves references against a table that takes no more declarations. -/
def resolveAll (t : Symbols) (references : List DeferredReference) :
    Except Failure ResolvedReferences :=
  if !t.frozen then .error .unfrozenTable
  else
    .ok
      { records :=
          (references.map (Resolve.record t)).mergeSort fun a b => (Resolve.order a b).isLE
        diagnostics :=
          references.filterMap (fun r => (Resolve.one t r).diagnostic? r.path) ++
            (t.names .error).filterMap (Resolve.errorClash t) }

end AppSpec
