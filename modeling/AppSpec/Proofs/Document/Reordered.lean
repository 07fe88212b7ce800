import AppSpec.Document.Validate
import AppSpec.Proofs.Graph.Order
import AppSpec.Proofs.Layer.LayersReordered
import AppSpec.Proofs.Reference.Relationships

/-!
Documents whose declarations stand in another order. Layer by layer the same is loaded but for the
order, so the model is the same but for the order, and the diagnostics agree class by class.
-/

namespace AppSpec

variable {E : String → Prop} {F : Prop} {limit : Int} {entries entries' : Entries}

/-! ### Loaded documents -/

namespace LoadedDocument

structure Alike (E : String → Prop) (F : Prop) (limit : Int) (d d' : LoadedDocument) : Prop where
  results : List.Forall₂ (LayerResult.Alike F limit) d.results d'.results
  symbols : d.symbols.Alike E d'.symbols

variable {d d' r : LoadedDocument}

namespace Alike

theorem loadLayers {layers : List Layer} (h : Alike E F limit d d')
    (hlayers : ∀ layer : Layer,
      layer.Matches E F limit (entries.field layer.label) (entries'.field layer.label))
    (hd : LoadedDocument.loadLayers limit entries layers d = .ok r) :
    ∃ r', LoadedDocument.loadLayers limit entries' layers d' = .ok r' ∧ Alike E F limit r r' := by
  induction layers generalizing d d' with
  | nil =>
      cases hd
      exact ⟨d', rfl, h⟩
  | cons layer layers ih =>
      obtain ⟨⟨result, symbols⟩, hload, hd⟩ := bind_eq_ok.mp hd
      obtain ⟨result', symbols', hload', hresult, hsymbols⟩ := hlayers layer _ _ _ _ h.symbols hload
      have hnext : Alike E F limit ⟨d.results ++ [result], symbols⟩
          ⟨d'.results ++ [result'], symbols'⟩ :=
        ⟨List.rel_append h.results (.cons hresult .nil), hsymbols⟩
      obtain ⟨r', hr', halike⟩ := ih hnext hd
      exact ⟨r', bind_eq_ok.mpr ⟨(result', symbols'), hload', hr'⟩, halike⟩

theorem ofEntries (hlayers : ∀ layer : Layer,
      layer.Matches E F limit (entries.field layer.label) (entries'.field layer.label))
    (hd : LoadedDocument.ofEntries limit entries = .ok d) :
    ∃ d', LoadedDocument.ofEntries limit entries' = .ok d' ∧ Alike E F limit d d' :=
  loadLayers ⟨.nil, .empty⟩ hlayers hd

theorem diagnostics (h : Alike E F limit d d') :
    Shuffled (ItemFault limit) d.diagnostics d'.diagnostics :=
  .flatMap h.results fun hr => hr.notes.diagnostics

theorem references (h : Alike E F limit d d') :
    Shuffled DeferredReference.ByKind d.references d'.references :=
  .flatMap h.results fun hr => hr.notes.references

theorem paths (h : Alike E F limit d d') (layer : Layer) (name : String) :
    (d.paths layer).get? name = (d'.paths layer).get? name := by
  obtain ⟨results, symbols⟩ := d
  obtain ⟨results', symbols'⟩ := d'
  have hresults : List.Forall₂ (LayerResult.Alike F limit) results results' := h.results
  clear h
  rw [LoadedDocument.paths, LoadedDocument.paths]
  induction hresults with
  | nil => rfl
  | @cons r r' results results' hr _ ih =>
      rw [List.find?_cons, List.find?_cons, ← hr.layer]
      cases r.layer == layer with
      | true => exact hr.notes.paths name
      | false => exact ih

end Alike

end LoadedDocument

/-! ### Models -/

namespace DocumentModel

/-- What the layers of two documents say is the same but for the order. -/
structure Alike (F : Prop) (m m' : DocumentModel) : Prop where
  project : m.project = m'.project
  customTypes : m.customTypes.Perm m'.customTypes
  entities : m.entities.Reordered Entity.name m'.entities
  operations : m.operations.Perm m'.operations
  components : m.components.Reordered Component.id m'.components
  workflows : m.workflows = m'.workflows
  pages : F ∧ m.pages.Perm m'.pages ∨ m.pages = m'.pages
  roles : m.security.roles.Reordered Role.name m'.security.roles
  security : m'.security = { m.security with roles := m'.security.roles }
  resources : m.resources = m'.resources
  integrations : m.integrations = m'.integrations
  mapping : m.mapping = m'.mapping

/-- The same document but for the order of the entries of its mappings. -/
structure SameButOrder (m m' : DocumentModel) : Prop where
  project : m.project = m'.project
  customTypes : m.customTypes.Perm m'.customTypes
  entities : m.entities.Perm m'.entities
  relationships : m.relationships = m'.relationships
  operations : m.operations.Perm m'.operations
  components : m.components.Perm m'.components
  workflows : m.workflows = m'.workflows
  pages : m.pages.Perm m'.pages
  roles : m.security.roles.Perm m'.security.roles
  security : m'.security = { m.security with roles := m'.security.roles }
  resources : m.resources = m'.resources
  integrations : m.integrations = m'.integrations
  mapping : m.mapping = m'.mapping
  metadata : m.metadata = m'.metadata
  references : m.references = m'.references
  componentGraph : m.componentGraph.Perm m'.componentGraph
  roleGraph : m.roleGraph.Perm m'.roleGraph

variable {m m' : DocumentModel} {data data' : LayerData}

theorem SameButOrder.refl (m : DocumentModel) : SameButOrder m m :=
  ⟨rfl, .refl _, .refl _, rfl, .refl _, .refl _, rfl, .refl _, .refl _, rfl, rfl, rfl, rfl, rfl, rfl,
    .refl _, .refl _⟩

namespace Alike

theorem refl (m : DocumentModel) : Alike F m m :=
  ⟨rfl, .refl _, .same _, .refl _, .same _, rfl, .inr rfl, .same _, rfl, rfl, rfl, rfl⟩

theorem withLayer (h : Alike F m m') (hdata : data.Alike F data') :
    Alike F (m.withLayer data) (m'.withLayer data') := by
  cases hdata with
  | same data =>
      cases data with
      | nothing => exact h
      | project info => exact { h with project := rfl }
      | domain l => exact { h with customTypes := .refl _, entities := .same _ }
      | logic os => exact { h with operations := .refl _ }
      | components cs => exact { h with components := .same _ }
      | workflow ws => exact { h with workflows := rfl }
      | ui ps => exact { h with pages := .inr rfl }
      | security p => exact { h with roles := .same _, security := rfl }
      | infrastructure rs => exact { h with resources := rfl }
      | integrations is => exact { h with integrations := rfl }
      | mapping es => exact { h with mapping := rfl }
  | domain htypes hentities => exact { h with customTypes := htypes, entities := hentities }
  | logic hoperations => exact { h with operations := hoperations }
  | components hcomponents => exact { h with components := hcomponents }
  | ui hF hpages => exact { h with pages := .inl ⟨hF, hpages⟩ }
  | security hroles hrest => exact { h with roles := hroles, security := hrest }

theorem foldl_withLayer {results results' : List LayerResult}
    (hresults : List.Forall₂ (LayerResult.Alike F limit) results results') (h : Alike F m m') :
    Alike F (results.foldl (fun m r => m.withLayer r.data) m)
      (results'.foldl (fun m r => m.withLayer r.data) m') := by
  induction hresults generalizing m m' with
  | nil => exact h
  | cons hr _ ih => exact ih (h.withLayer hr.data)

theorem ofLayers {d d' : LoadedDocument} (h : d.Alike E F limit d') :
    Alike F (DocumentModel.ofLayers d) (DocumentModel.ofLayers d') :=
  foldl_withLayer h.results (refl {})

end Alike

end DocumentModel

end AppSpec
