import AppSpec.Namespace

/-!
References to declarations by name: as they are met, and as they are resolved.
-/

namespace AppSpec

inductive ReferenceKind where
  | type
  | relation
  | modifies
  | error
  | call
  | onError
  | onTimeout
  | responsibility
  | dependency
  | resource
  | role
  | inherits
  | action
  | display
  | field
  | mappingKey
  | mappingTarget
  deriving DecidableEq, Repr

namespace ReferenceKind

def label : ReferenceKind → String
  | .type => "type"
  | .relation => "relation"
  | .modifies => "modifies"
  | .error => "error"
  | .call => "call"
  | .onError => "on_error"
  | .onTimeout => "on_timeout"
  | .responsibility => "responsibility"
  | .dependency => "dependency"
  | .resource => "resource"
  | .role => "role"
  | .inherits => "inherits"
  | .action => "action"
  | .display => "display"
  | .field => "field"
  | .mappingKey => "mapping_key"
  | .mappingTarget => "mapping_target"

def all : List ReferenceKind :=
  [.type, .relation, .modifies, .error, .call, .onError, .onTimeout, .responsibility,
    .dependency, .resource, .role, .inherits, .action, .display, .field, .mappingKey,
    .mappingTarget]

def ofLabel? (s : String) : Option ReferenceKind := all.find? fun k => k.label == s

theorem ofLabel?_label (k : ReferenceKind) : ofLabel? k.label = some k := by
  cases k <;> decide

end ReferenceKind

/-- A name that some place of the document mentions, and where it may be declared. -/
structure DeferredReference where
  path : String
  name : String
  spaces : List Namespace
  kind : ReferenceKind
  deriving DecidableEq, Repr

/-- How a reference came out. A dangling one may still have found the declaration that it starts
from. -/
inductive Outcome where
  | resolved (space : Namespace)
  | dangling (found : Option Namespace)
  deriving DecidableEq, Repr

namespace Outcome

def isDangling : Outcome → Bool
  | .resolved _ => false
  | .dangling _ => true

def label : Outcome → String
  | .resolved _ => "resolved"
  | .dangling _ => "dangling"

def space? : Outcome → Option Namespace
  | .resolved space => some space
  | .dangling found => found

end Outcome

structure ReferenceRecord where
  path : String
  name : String
  kind : ReferenceKind
  spaces : List Namespace
  outcome : Outcome
  deriving DecidableEq, Repr

namespace ReferenceRecord

def isDangling (r : ReferenceRecord) : Bool := r.outcome.isDangling

end ReferenceRecord

end AppSpec
