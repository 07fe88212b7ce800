import AppSpec.Named
import AppSpec.Value.Basic

/-!
Components, infrastructure resources, integrations, and the mapping of operations to members of
components and integrations; pages, roles and permissions.
-/

namespace AppSpec

structure Component where
  id : String
  kind : Option String
  description : Option String
  responsibilities : List String
  dependencies : List String
  resources : List String
  exposes : Entries

structure Resource where
  id : String
  kind : Option String
  config : Named Value

structure Integration where
  id : String
  kind : Option String
  baseUrl : Option String
  operations : Entries
  config : Named Value

/-- An operation and the dotted path it is bound to; no path where it is left unmapped. -/
structure MappingEntry where
  operation : String
  target : Option String
  deriving DecidableEq, Repr

namespace MappingEntry

def isUnmapped (e : MappingEntry) : Bool := e.target.isNone

end MappingEntry

structure Page where
  name : String
  route : Option String
  description : Option String
  displays : List String
  actions : List String
  roles : List String
  deriving DecidableEq, Repr

structure Role where
  name : String
  description : Option String
  inherits : List String
  deriving DecidableEq, Repr

structure Permission where
  action : String
  roles : List String
  rateLimit : Option String
  filter : Option String
  deriving DecidableEq, Repr

structure FieldAccess where
  entity : String
  field : String
  readRoles : List String
  writeRoles : List String
  deriving DecidableEq, Repr

structure SecurityPolicy where
  roles : Named Role := []
  permissions : List Permission := []
  fieldAccess : List FieldAccess := []
  authentication : Named Value := []

end AppSpec
