import AppSpec.Layer.Access
import AppSpec.Layer.Components
import AppSpec.Layer.Domain
import AppSpec.Layer.Logic
import AppSpec.Layer.Mapping
import AppSpec.Layer.Workflow

/-!
The layers of a document in the order in which they are loaded. A layer that is absent leaves
nothing behind.
-/

namespace AppSpec

inductive Layer where
  | project
  | domain
  | logic
  | components
  | workflow
  | ui
  | security
  | infrastructure
  | integrations
  | mapping
  deriving DecidableEq, Repr

namespace Layer

def label : Layer → String
  | .project => "project"
  | .domain => "domain"
  | .logic => "logic"
  | .components => "components"
  | .workflow => "workflow"
  | .ui => "ui"
  | .security => "security"
  | .infrastructure => "infrastructure"
  | .integrations => "integrations"
  | .mapping => "mapping"

def all : List Layer :=
  [.project, .domain, .logic, .components, .workflow, .ui, .security, .infrastructure,
    .integrations, .mapping]

theorem mem_all (l : Layer) : l ∈ all := by
  cases l <;> decide

def ofLabel? (s : String) : Option Layer := all.find? fun l => l.label == s

end Layer

inductive LayerData where
  | nothing
  | project (info : ProjectInfo)
  | domain (loaded : Domain.Loaded)
  | logic (operations : Named Operation)
  | components (components : Named Component)
  | workflow (workflows : Named Workflow)
  | ui (pages : Named Page)
  | security (policy : SecurityPolicy)
  | infrastructure (resources : Named Resource)
  | integrations (integrations : Named Integration)
  | mapping (entries : Named MappingEntry)

structure LayerResult where
  layer : Layer
  data : LayerData
  notes : LayerNotes

namespace Layer

def collected {α : Type} (layer : Layer) (data : Named α → LayerData)
    (d : Except Failure (Declared α)) : Except Failure (LayerResult × Symbols) := do
  let d ← d
  return (⟨layer, data d.items, .ofNotes d.notes d.paths⟩, d.symbols)

def loadPresent (limit : Int) (layer : Layer) (v : Value) (symbols : Symbols) :
    Except Failure (LayerResult × Symbols) := do
  match layer with
  | .project =>
      let (info, notes) ← Project.loadInfo v
      return (⟨layer, (info.map .project).getD .nothing, .ofNotes notes⟩, symbols)
  | .domain =>
      let (loaded, notes, symbols) ← Domain.load limit v symbols
      return (⟨layer, (loaded.map .domain).getD .nothing, notes⟩, symbols)
  | .logic => collected layer .logic (Logic.load limit v symbols)
  | .components => collected layer .components (Components.load v symbols)
  | .workflow => collected layer .workflow (Workflows.load v symbols)
  | .ui => collected layer .ui (Pages.load v symbols)
  | .security =>
      let (policy, notes, symbols) ← Security.load v symbols
      return (⟨layer, (policy.map .security).getD .nothing, notes⟩, symbols)
  | .infrastructure => collected layer .infrastructure (Infrastructure.load v symbols)
  | .integrations => collected layer .integrations (Integrations.load v symbols)
  | .mapping =>
      let (loaded, notes) ← Mapping.load v
      match loaded with
      | none => return (⟨layer, .nothing, .ofNotes notes⟩, symbols)
      | some m => return (⟨layer, .mapping m.entries, .ofNotes notes m.paths⟩, symbols)

def load (limit : Int) (layer : Layer) (v : Value) (symbols : Symbols) :
    Except Failure (LayerResult × Symbols) :=
  if v.isNull then .ok (⟨layer, .nothing, {}⟩, symbols)
  else loadPresent limit layer v symbols

/-- Loads layers one after the other; each result comes with the symbols after it. -/
def loadAll (limit : Int) :
    List (Layer × Value) → Symbols → Except Failure (List (LayerResult × Symbols))
  | [], _ => .ok []
  | (layer, v) :: rest, symbols => do
      let (result, symbols) ← load limit layer v symbols
      return (result, symbols) :: (← loadAll limit rest symbols)

end Layer

end AppSpec
