import AppSpec.Diagnostic
import AppSpec.Model.Behaviour
import AppSpec.Model.Domain
import AppSpec.Model.Reference
import AppSpec.Model.Structure
import AppSpec.SymbolTable

/-!
A whole document: what its layers declare, how its references were resolved, and its graphs.
-/

namespace AppSpec

structure ProjectInfo where
  name : Option String
  version : Option String
  description : Option String
  language : Option String
  extra : Named Value

inductive Definition where
  | entity (e : Entity)
  | customType (t : CustomType)
  | operation (o : Operation)
  | component (c : Component)
  | role (r : Role)
  | integration (i : Integration)
  | resource (r : Resource)
  | workflow (w : Workflow)
  | page (p : Page)

abbrev Symbols := SymbolTable Definition

structure DocumentModel where
  project : Option ProjectInfo := none
  customTypes : Named CustomType := []
  entities : Named Entity := []
  relationships : List Relationship := []
  operations : Named Operation := []
  components : Named Component := []
  workflows : Named Workflow := []
  pages : Named Page := []
  security : SecurityPolicy := {}
  resources : Named Resource := []
  integrations : Named Integration := []
  mapping : Named MappingEntry := []
  metadata : Named Value := []
  references : List ReferenceRecord := []
  componentGraph : Named (List String) := []
  roleGraph : Named (List String) := []

namespace SecurityPolicy

def isEmpty (p : SecurityPolicy) : Bool :=
  p.roles.isEmpty && p.permissions.isEmpty && p.fieldAccess.isEmpty && p.authentication.isEmpty

end SecurityPolicy

namespace DocumentModel

def isEmpty (d : DocumentModel) : Bool :=
  d.project.isNone && d.customTypes.isEmpty && d.entities.isEmpty && d.relationships.isEmpty &&
    d.operations.isEmpty && d.components.isEmpty && d.workflows.isEmpty && d.pages.isEmpty &&
    d.security.isEmpty && d.resources.isEmpty && d.integrations.isEmpty && d.mapping.isEmpty &&
    d.metadata.isEmpty && d.references.isEmpty && d.componentGraph.isEmpty && d.roleGraph.isEmpty

def referencesAt (d : DocumentModel) (path : String) : List ReferenceRecord :=
  d.references.filter fun r => r.path == path

def dangling (d : DocumentModel) : List ReferenceRecord :=
  d.references.filter ReferenceRecord.isDangling

def unmapped (d : DocumentModel) : List String :=
  (d.mapping.filter fun e => e.2.isUnmapped).map (·.1)

end DocumentModel

structure ValidationResult where
  document : DocumentModel
  diagnostics : List Diagnostic

end AppSpec
