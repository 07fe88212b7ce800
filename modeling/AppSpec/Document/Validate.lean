import AppSpec.Document.Positions
import AppSpec.Graph.Basic
import AppSpec.Layer.Basic
import AppSpec.Reference.Relationships
import AppSpec.Reference.Resolve
import AppSpec.Settings.Basic

/-!
Validating a document: its layers are loaded in their order, their references resolved, and what
remains checked across layers.
-/

namespace AppSpec

/-- The layers of a document as they were loaded, with the symbols that all of them declare. -/
structure LoadedDocument where
  results : List LayerResult
  symbols : Symbols

namespace LoadedDocument

def loadLayers (limit : Int) (entries : Entries) :
    List Layer → LoadedDocument → Except Failure LoadedDocument
  | [], d => .ok d
  | layer :: rest, d => do
      let (result, symbols) ← Layer.load limit layer (Entries.field entries layer.label) d.symbols
      loadLayers limit entries rest ⟨d.results ++ [result], symbols⟩

def ofEntries (limit : Int) (entries : Entries) : Except Failure LoadedDocument :=
  loadLayers limit entries Layer.all ⟨[], .empty⟩

def diagnostics (d : LoadedDocument) : List Diagnostic :=
  d.results.flatMap fun r => r.notes.diagnostics

def references (d : LoadedDocument) : List DeferredReference :=
  d.results.flatMap fun r => r.notes.references

def paths (d : LoadedDocument) (layer : Layer) : Named String :=
  ((d.results.find? fun r => r.layer == layer).map (·.notes.paths)).getD []

end LoadedDocument

namespace DocumentModel

def withLayer (m : DocumentModel) : LayerData → DocumentModel
  | .nothing => m
  | .project info => { m with project := some info }
  | .domain d => { m with customTypes := d.customTypes, entities := d.entities }
  | .logic operations => { m with operations }
  | .components components => { m with components }
  | .workflow workflows => { m with workflows }
  | .ui pages => { m with pages }
  | .security security => { m with security }
  | .infrastructure resources => { m with resources }
  | .integrations integrations => { m with integrations }
  | .mapping mapping => { m with mapping }

def ofLayers (d : LoadedDocument) : DocumentModel :=
  d.results.foldl (fun m r => m.withLayer r.data) {}

end DocumentModel

namespace Document

def sectionWarning (key : Scalar) : Option Diagnostic :=
  let name := key.text
  if layerOrder.contains name then none
  else
    some (.schemaWarning name ("unknown top-level section '" ++ name ++ "'")
      (didYouMean name layerOrder))

/-- Metadata is kept where it is a mapping with entries. -/
def metadata (v : Value) : Option Entries × List Diagnostic :=
  match v with
  | .null => (none, [])
  | .dict [] => (none, [])
  | .dict entries => (some entries, [])
  | v =>
      (none, [.syntaxError "metadata" ("metadata must be a mapping, got " ++ v.kindName)])

def namedMetadata : Option Entries → Except Failure (Named Value)
  | none => .ok []
  | some entries => Security.namedSettings entries

def pathIn (paths : Named String) (base name : String) : String :=
  (paths.get? name).getD (Path.child base name)

def unmappedOperations (severity : Severity) (m : DocumentModel) (paths : Named String) :
    List Diagnostic :=
  let covered := m.components.values.flatMap (·.responsibilities)
  (m.operations.keys.filter fun name => !covered.contains name).map fun name =>
    .make .consistency severity (pathIn paths "logic" name) ("unmapped operation: " ++ name)
      (some "List the operation under a component's responsibilities")

def missingMappings (m : DocumentModel) (paths : Named String) : List Diagnostic :=
  (m.operations.keys.filter fun name => !m.mapping.has name).map fun name =>
    .consistencyWarning (pathIn paths "logic" name)
      ("operation '" ++ name ++ "' has no mapping entry")
      (some ("Add 'mapping." ++ name ++ "' (use null to accept it as unmapped)"))

def duplicateRoutes (paths : Named String) : List Page → Named String → List Diagnostic
  | [], _ => []
  | page :: rest, seen =>
      match page.route with
      | none => duplicateRoutes paths rest seen
      | some route =>
          match seen.get? route with
          | some first =>
              .consistencyError (Path.child (pathIn paths "ui" page.name) "route")
                  ("duplicate route '" ++ route ++ "' (already used by page '" ++ first ++ "')") ::
                duplicateRoutes paths rest seen
          | none => duplicateRoutes paths rest (seen ++ [(route, page.name)])

structure Graphs where
  components : DependencyGraph
  roles : DependencyGraph
  required : DependencyGraph

def graphs (m : DocumentModel) (relationships : List Relationship) : Graphs where
  components := .ofComponents (m.components.values.map fun c => (c.id, c.dependencies))
  roles := .ofRoles (m.security.roles.values.map fun r => (r.name, r.inherits))
  required := .ofRequired m.entities.keys relationships

def cycleDiagnostics (s : Settings) (d : LoadedDocument) (g : Graphs) : List Diagnostic :=
  g.components.cycleDiagnostics (pathIn (d.paths .components) "components") false ++
    g.roles.cycleDiagnostics (pathIn (d.paths .security) "security.roles") false ++
    if s.detectEntityCycles then
      g.required.cycleDiagnostics (pathIn (d.paths .domain) "domain") true
    else []

def hasMapping (entries : Entries) : Bool := !(Entries.field entries "mapping").isNull

def crossChecks (s : Settings) (entries : Entries) (d : LoadedDocument) (m : DocumentModel) :
    List Diagnostic :=
  unmappedOperations s.unmappedSeverity m (d.paths .logic) ++
    (if s.requireMappingEntries && hasMapping entries then missingMappings m (d.paths .logic)
      else []) ++
    duplicateRoutes (d.paths .ui) m.pages.values []

/-- The model of a document and its diagnostics, in the order in which they come up. -/
def check (s : Settings) (entries : Entries) : Except Failure ValidationResult := do
  let loaded ← LoadedDocument.ofEntries s.typeLimit entries
  let (extra, metadataFaults) := metadata (Entries.field entries "metadata")
  let resolved ← resolveAll loaded.symbols.freeze loaded.references
  let model := DocumentModel.ofLayers loaded
  let inferred :=
    inferRelationships loaded.symbols.freeze model.entities.values (loaded.paths .domain)
  let g := graphs model inferred.relationships
  let metadata ← namedMetadata extra
  let document : DocumentModel :=
    { model with
      metadata := metadata
      relationships := inferred.relationships
      references := resolved.records
      componentGraph := g.components.adjacency
      roleGraph := g.roles.adjacency }
  let diagnostics :=
    entries.filterMap (fun e => sectionWarning e.1) ++ loaded.diagnostics ++
      metadataFaults ++ resolved.diagnostics ++ inferred.diagnostics ++
      cycleDiagnostics s loaded g ++ crossChecks s entries loaded model
  return ⟨document, diagnostics⟩

def rejected (message : String) (positions : Positions) : ValidationResult :=
  let d := Diagnostic.fatalSyntax "" message
  ⟨{}, [match positions.get? "" with
    | some p => d.placed p.line p.column
    | none => d]⟩

def emptyMessage : String := "document is empty"

def wrongRootMessage (kind : String) : String :=
  "document root must be a mapping of layers, got " ++ kind

/-- Validates a document, with its diagnostics in order and placed in its text. -/
def validate (s : Settings) (v : Value) (positions : Positions := []) :
    Except Failure ValidationResult := do
  match v with
  | .null => return rejected emptyMessage positions
  | .dict [] => return rejected emptyMessage positions
  | .dict entries =>
      if v.hasLongKey then throw .integerTooLong
      let result ← check s entries
      return { result with
        diagnostics := Diagnostic.sorted (result.diagnostics.map (Diagnostic.locate positions)) }
  | v => return rejected (wrongRootMessage v.kindName) positions

end Document

end AppSpec
