/-!
The namespaces of declarations. Some share their names, because a reference does not tell which of
them it means.
-/

namespace AppSpec

inductive Namespace where
  | entity
  | customType
  | operation
  | component
  | role
  | integration
  | resource
  | error
  | workflow
  | page
  deriving DecidableEq, Repr

namespace Namespace

def label : Namespace → String
  | .entity => "entity"
  | .customType => "custom_type"
  | .operation => "operation"
  | .component => "component"
  | .role => "role"
  | .integration => "integration"
  | .resource => "resource"
  | .error => "error"
  | .workflow => "workflow"
  | .page => "page"

/-- The namespace in the words of a message. -/
def noun : Namespace → String
  | .customType => "custom type"
  | .resource => "infrastructure resource"
  | ns => ns.label

def all : List Namespace :=
  [.entity, .customType, .operation, .component, .role, .integration, .resource, .error,
    .workflow, .page]

theorem mem_all (ns : Namespace) : ns ∈ all := by
  cases ns <;> decide

def ofLabel? (s : String) : Option Namespace := all.find? fun ns => ns.label == s

theorem ofLabel?_label (ns : Namespace) : ofLabel? ns.label = some ns := by
  cases ns <;> decide

/-- The other namespace in which a name must not be declared as well. -/
def rival? : Namespace → Option Namespace
  | .entity => some .customType
  | .customType => some .entity
  | .component => some .integration
  | .integration => some .component
  | _ => none

theorem rival?_symm {a b : Namespace} (h : a.rival? = some b) : b.rival? = some a := by
  cases a <;> cases b <;> simp_all [rival?]

def isTypeSpace (ns : Namespace) : Bool := ns == .entity || ns == .customType

end Namespace

end AppSpec
