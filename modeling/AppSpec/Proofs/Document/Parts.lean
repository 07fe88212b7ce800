import AppSpec.Document.Validate
import AppSpec.Proofs.Layer.Frame

/-!
A loaded document taken apart: each layer was loaded once, next to what the layers before it
declare, and what it left behind is in the document, whatever the other layers hold.
-/

namespace AppSpec

theorem Value.eq_null_of_isNull {v : Value} (h : v.isNull = true) : v = .null := by
  unfold isNull at h
  split at h
  · rfl
  · cases h

namespace LayerData

def layer? : LayerData → Option Layer
  | .nothing => none
  | .project _ => some .project
  | .domain _ => some .domain
  | .logic _ => some .logic
  | .components _ => some .components
  | .workflow _ => some .workflow
  | .ui _ => some .ui
  | .security _ => some .security
  | .infrastructure _ => some .infrastructure
  | .integrations _ => some .integrations
  | .mapping _ => some .mapping

end LayerData

namespace DocumentModel

/-- What the model holds of a layer. -/
def part (m : DocumentModel) : Layer → LayerData
  | .project => (m.project.map .project).getD .nothing
  | .domain => .domain ⟨m.customTypes, m.entities⟩
  | .logic => .logic m.operations
  | .components => .components m.components
  | .workflow => .workflow m.workflows
  | .ui => .ui m.pages
  | .security => .security m.security
  | .infrastructure => .infrastructure m.resources
  | .integrations => .integrations m.integrations
  | .mapping => .mapping m.mapping

theorem part_withLayer (m : DocumentModel) (data : LayerData) (layer : Layer) :
    (m.withLayer data).part layer = if data.layer? = some layer then data else m.part layer := by
  cases data <;> cases layer <;> rfl

theorem part_withLayers {results : List LayerResult} {layer : Layer}
    (h : ∀ r ∈ results, r.data.layer? ≠ some layer) (m : DocumentModel) :
    (results.foldl (fun m r => m.withLayer r.data) m).part layer = m.part layer := by
  induction results generalizing m with
  | nil => rfl
  | cons r results ih =>
      obtain ⟨hr, hrest⟩ := List.forall_mem_cons.mp h
      rw [List.foldl_cons, ih hrest, part_withLayer, if_neg hr]

end DocumentModel

namespace Layer

/-- The layers that are loaded before this one. -/
def before (layer : Layer) : List Layer := all.takeWhile (· != layer)

def after (layer : Layer) : List Layer := (all.dropWhile (· != layer)).tail

theorem all_eq (layer : Layer) : all = layer.before ++ layer :: layer.after := by
  cases layer <;> rfl

theorem not_mem_before (layer : Layer) : layer ∉ layer.before := by
  cases layer <;> decide

theorem not_mem_after (layer : Layer) : layer ∉ layer.after := by
  cases layer <;> decide

/-- The result is one of this layer. -/
def Results (layer : Layer) (r : LayerResult) : Prop :=
  r.layer = layer ∧ ∀ other, r.data.layer? = some other → other = layer

variable {limit : Int} {layer : Layer} {v : Value} {t u : Symbols} {r : LayerResult}

theorem results_collected {α : Type} {data : Named α → LayerData} {d : Except Failure (Declared α)}
    (hdata : ∀ items, (data items).layer? = some layer)
    (h : collected layer data d = .ok (r, u)) : layer.Results r := by
  obtain ⟨s, -, h⟩ := bind_eq_ok.mp h
  cases h
  refine ⟨rfl, fun other hother => ?_⟩
  rw [hdata] at hother
  exact (Option.some.inj hother).symm

theorem results_getD {α : Type} {data : α → LayerData} (hdata : ∀ a, (data a).layer? = some layer)
    (o : Option α) (notes : LayerNotes) :
    layer.Results ⟨layer, (o.map data).getD .nothing, notes⟩ := by
  refine ⟨rfl, fun other hother => ?_⟩
  cases o with
  | none => cases hother
  | some a =>
      have hsome : (data a).layer? = some other := hother
      rw [hdata] at hsome
      exact (Option.some.inj hsome).symm

theorem results_load (h : load limit layer v t = .ok (r, u)) : layer.Results r := by
  rw [load] at h
  split at h
  · cases h
    exact ⟨rfl, by simp [LayerData.layer?]⟩
  · cases layer with
    | project =>
        obtain ⟨⟨info, notes⟩, -, h⟩ := bind_eq_ok.mp h
        cases h
        exact results_getD (fun _ => rfl) _ _
    | domain =>
        obtain ⟨⟨loaded, notes, symbols⟩, -, h⟩ := bind_eq_ok.mp h
        cases h
        exact results_getD (fun _ => rfl) _ _
    | security =>
        obtain ⟨⟨policy, notes, symbols⟩, -, h⟩ := bind_eq_ok.mp h
        cases h
        exact results_getD (fun _ => rfl) _ _
    | mapping =>
        obtain ⟨⟨loaded, notes⟩, -, h⟩ := bind_eq_ok.mp h
        cases loaded with
        | none =>
            cases h
            exact ⟨rfl, by simp [LayerData.layer?]⟩
        | some m =>
            cases h
            exact ⟨rfl, fun other hother => (Option.some.inj hother).symm⟩
    | _ => exact results_collected (fun _ => rfl) h

/-! ### Layers that are one collection -/

section Collections

variable {α : Type} {data : Named α → LayerData} {ns : Namespace} {define : α → Definition}
  {load : String → Value → String → Load (Option α)} {place : Value × String}

/-- A layer is loaded as the collection that stands at a place in it. -/
structure IsCollection (limit : Int) (layer : Layer) (v : Value) (data : Named α → LayerData)
    (ns : Namespace) (define : α → Definition) (load : String → Value → String → Load (Option α))
    (place : Value × String) : Prop where
  present : ∀ t, loadPresent limit layer v t =
    collected layer data (declareAll ns define load place.1 place.2 t)
  absent : v = .null → place.1 = .null
  empty : (DocumentModel.withLayer {} (data [])).part layer = ({} : DocumentModel).part layer

theorem isCollection_logic (limit : Int) (v : Value) : IsCollection limit .logic v .logic .operation
    .operation (Logic.loadOperation limit) (unwrapped v "logic" "operations") :=
  ⟨fun _ => rfl, by rintro rfl; rfl, rfl⟩

theorem isCollection_components (limit : Int) (v : Value) : IsCollection limit .components v
    .components .component .component Components.loadComponent (v, "components") :=
  ⟨fun _ => rfl, id, rfl⟩

theorem isCollection_workflow (limit : Int) (v : Value) : IsCollection limit .workflow v .workflow
    .workflow .workflow Workflows.loadWorkflow (v, "workflow") := ⟨fun _ => rfl, id, rfl⟩

theorem isCollection_ui (limit : Int) (v : Value) : IsCollection limit .ui v .ui .page .page
    Pages.loadPage (unwrapped v "ui" "pages") := ⟨fun _ => rfl, by rintro rfl; rfl, rfl⟩

theorem isCollection_infrastructure (limit : Int) (v : Value) : IsCollection limit .infrastructure v
    .infrastructure .resource .resource Infrastructure.loadResource (v, "infrastructure") :=
  ⟨fun _ => rfl, id, rfl⟩

theorem isCollection_integrations (limit : Int) (v : Value) : IsCollection limit .integrations v
    .integrations .integration .integration Integrations.loadIntegration (v, "integrations") :=
  ⟨fun _ => rfl, id, rfl⟩

end Collections

end Layer

namespace LoadedDocument

variable {limit : Int} {entries : Entries} {layers : List Layer} {d d' : LoadedDocument}

theorem loadLayers_append (layers more : List Layer) (d : LoadedDocument) :
    loadLayers limit entries (layers ++ more) d =
      (do loadLayers limit entries more (← loadLayers limit entries layers d)) := by
  induction layers generalizing d with
  | nil => rfl
  | cons layer layers ih =>
      rw [List.cons_append, loadLayers, loadLayers]
      cases Layer.load limit layer (entries.field layer.label) d.symbols with
      | error e => rfl
      | ok found => exact ih _

theorem loadLayers_eq_ok (h : loadLayers limit entries layers d = .ok d') :
    ∃ more, d'.results = d.results ++ more ∧ List.Forall₂ Layer.Results layers more ∧
      d.symbols.Extends (layers.flatMap Layer.declares) d'.symbols := by
  induction layers generalizing d with
  | nil =>
      cases h
      exact ⟨[], (List.append_nil _).symm, .nil, .refl _ _⟩
  | cons layer layers ih =>
      obtain ⟨⟨r, u⟩, hload, h⟩ := bind_eq_ok.mp h
      obtain ⟨more, hresults, hmore, hextends⟩ := ih h
      refine ⟨r :: more, ?_, .cons (Layer.results_load hload) hmore, ?_⟩
      · rw [hresults, List.append_assoc]
        rfl
      · exact (Layer.extends_load hload).append hextends

/-- How a layer was loaded as a part of the document. -/
structure Loaded (limit : Int) (entries : Entries) (d : LoadedDocument) (layer : Layer)
    (t : Symbols) (r : LayerResult) (u : Symbols) : Prop where
  load : Layer.load limit layer (entries.field layer.label) t = .ok (r, u)
  before : SymbolTable.empty.Extends (layer.before.flatMap Layer.declares) t
  after : u.Extends (layer.after.flatMap Layer.declares) d.symbols
  part : (DocumentModel.ofLayers d).part layer = (DocumentModel.withLayer {} r.data).part layer
  paths : d.paths layer = r.notes.paths
  mem : r ∈ d.results

theorem other_results {layer : Layer} {results : List LayerResult} (hlayer : layer ∉ layers)
    (h : List.Forall₂ Layer.Results layers results) :
    ∀ r ∈ results, r.layer ≠ layer ∧ r.data.layer? ≠ some layer := by
  induction h with
  | nil => exact List.forall_mem_nil _
  | @cons other r layers results hr _ ih =>
      obtain ⟨hne, hrest⟩ := not_or.mp fun hmem => hlayer (List.mem_cons.mpr hmem)
      refine List.forall_mem_cons.mpr
        ⟨⟨fun heq => hne (heq.symm.trans hr.1), fun hdata => ?_⟩, ih hrest⟩
      exact hne (hr.2 layer hdata)

theorem exists_loaded (h : ofEntries limit entries = .ok d) (layer : Layer) :
    ∃ t r u, Loaded limit entries d layer t r u := by
  rw [ofEntries, layer.all_eq, loadLayers_append] at h
  obtain ⟨d₁, hbefore, h⟩ := bind_eq_ok.mp h
  obtain ⟨⟨r, u⟩, hload, hafter⟩ := bind_eq_ok.mp h
  obtain ⟨first, hfirst, hresults, hextends⟩ := loadLayers_eq_ok hbefore
  obtain ⟨last, hlast, hresults', hextends'⟩ := loadLayers_eq_ok hafter
  have hall : d.results = first ++ r :: last := by
    rw [hlast, hfirst, List.nil_append, List.append_assoc]
    rfl
  have hothers := other_results layer.not_mem_before hresults
  have hothers' := other_results layer.not_mem_after hresults'
  refine ⟨d₁.symbols, r, u, hload, hextends, hextends', ?_, ?_, ?_⟩
  · rw [DocumentModel.ofLayers, hall, List.foldl_append, List.foldl_cons,
      DocumentModel.part_withLayers (fun r hr => (hothers' r hr).2), DocumentModel.part_withLayer,
      DocumentModel.part_withLayers (fun r hr => (hothers r hr).2), DocumentModel.part_withLayer]
  · have hnone : first.find? (fun r => r.layer == layer) = none :=
      List.find?_eq_none.mpr fun r hr hfound => (hothers r hr).1 (by simpa using hfound)
    rw [paths, hall, List.find?_append, hnone, Option.none_or,
      List.find?_cons_of_pos (by simpa using (Layer.results_load hload).1)]
    rfl
  · rw [hall]
    exact List.mem_append_right _ List.mem_cons_self

namespace Loaded

variable {layer : Layer} {t : Symbols} {r : LayerResult} {u : Symbols} {ns : Namespace}

/-- What no layer before this one declares is not in the symbol table yet. -/
theorem fresh (h : Loaded limit entries d layer t r u) (herror : ns ≠ .error)
    (hns : ns ∉ layer.before.flatMap Layer.declares) (name : String) : t.find? ns name = none :=
  h.before.find?_eq herror hns name

theorem kept (h : Loaded limit entries d layer t r u) (herror : ns ≠ .error)
    (hns : ns ∉ layer.after.flatMap Layer.declares) (name : String) :
    d.symbols.find? ns name = u.find? ns name := h.after.find?_eq herror hns name

theorem unfrozen (h : Loaded limit entries d layer t r u) : t.frozen = false := h.before.frozen

/-- What the collection of a layer leaves in the document. -/
structure Declares {α : Type} (d : LoadedDocument) (layer : Layer) (data : Named α → LayerData)
    (r : LayerResult) (u : Symbols) (s : Declared α) : Prop where
  part : (DocumentModel.ofLayers d).part layer =
    (DocumentModel.withLayer {} (data s.items)).part layer
  paths : d.paths layer = s.paths
  diagnostics : ∀ e ∈ s.notes.diagnostics, e ∈ r.notes.diagnostics
  symbols : s.symbols = u

theorem exists_declared {α : Type} {data : Named α → LayerData} {define : α → Definition}
    {load : String → Value → String → Load (Option α)} {place : Value × String}
    (h : Loaded limit entries d layer t r u)
    (hlayer : layer.IsCollection limit (entries.field layer.label) data ns define load place) :
    ∃ s, declareAll ns define load place.1 place.2 t = .ok s ∧ Declares d layer data r u s := by
  have hload := h.load
  rw [Layer.load] at hload
  split at hload
  · next hnull =>
      rw [hlayer.absent (Value.eq_null_of_isNull hnull)]
      cases hload
      exact ⟨_, rfl, h.part.trans hlayer.empty.symm, h.paths, List.forall_mem_nil _, rfl⟩
  · rw [hlayer.present] at hload
    obtain ⟨s, hs, hload⟩ := bind_eq_ok.mp hload
    cases hload
    exact ⟨s, hs, h.part, h.paths, fun e he => he, rfl⟩

end Loaded

end LoadedDocument

namespace Document

/-! ### What is checked across layers -/

theorem category_sectionWarning {key : Scalar} {e : Diagnostic} (h : sectionWarning key = some e) :
    e.category = .schema := by
  rw [sectionWarning] at h
  split at h
  · cases h
  · cases h
    rfl

theorem category_metadata {v : Value} {e : Diagnostic} (h : e ∈ (metadata v).2) :
    e.category = .syntaxError := by
  unfold metadata at h
  split at h
  · cases h
  · cases h
  · cases h
  · cases List.mem_singleton.mp h
    rfl

theorem category_inferRelationships {t : Symbols} {entities : List Entity} {paths : Named String}
    {e : Diagnostic} (h : e ∈ (inferRelationships t entities paths).diagnostics) :
    e.category = .schema := by
  obtain ⟨found, hfound, he⟩ := List.mem_flatMap.mp h
  obtain ⟨entity, -, hfound⟩ := List.mem_flatMap.mp hfound
  obtain ⟨field, -, rfl⟩ := List.mem_map.mp hfound
  unfold Relationships.ofField at he
  split at he
  · cases he
  · dsimp only at he
    split at he
    · cases he
    · cases he
    · cases List.mem_singleton.mp he
      rfl

theorem category_cycleDiagnostics {s : Settings} {d : LoadedDocument} {g : Graphs} {e : Diagnostic}
    (h : e ∈ cycleDiagnostics s d g) : e.category = .consistency := by
  have hcycles {g : DependencyGraph} {pathOf : String → String} {warning : Bool}
      (h : e ∈ g.cycleDiagnostics pathOf warning) : e.category = .consistency := by
    obtain ⟨cycle, -, rfl⟩ := List.mem_map.mp h
    cases warning <;> rfl
  rcases List.mem_append.mp h with h | h
  · exact (List.mem_append.mp h).elim hcycles hcycles
  · split at h
    · exact hcycles h
    · cases h

theorem category_duplicateRoutes {paths : Named String} {pages : List Page} {seen : Named String}
    {e : Diagnostic} (h : e ∈ duplicateRoutes paths pages seen) : e.category = .consistency := by
  induction pages generalizing seen with
  | nil => cases h
  | cons page pages ih =>
      rw [duplicateRoutes] at h
      split at h
      · exact ih h
      · split at h
        · rcases List.mem_cons.mp h with rfl | h
          · rfl
          · exact ih h
        · exact ih h

theorem category_crossChecks {s : Settings} {entries : Entries} {d : LoadedDocument}
    {m : DocumentModel} {e : Diagnostic} (h : e ∈ crossChecks s entries d m) :
    e.category = .consistency := by
  rcases List.mem_append.mp h with h | h
  · rcases List.mem_append.mp h with h | h
    · obtain ⟨name, -, rfl⟩ := List.mem_map.mp h
      rfl
    · split at h
      · obtain ⟨name, -, rfl⟩ := List.mem_map.mp h
        rfl
      · cases h
  · exact category_duplicateRoutes h

/-- What validation makes of a loaded document. -/
structure Checked (s : Settings) (entries : Entries) (d : LoadedDocument) (r : ValidationResult) :
    Prop where
  loaded : LoadedDocument.ofEntries s.typeLimit entries = .ok d
  part : ∀ layer, r.document.part layer = (DocumentModel.ofLayers d).part layer
  relationships : r.document.relationships = (inferRelationships d.symbols.freeze
    r.document.entities.values (d.paths .domain)).relationships
  componentGraph : r.document.componentGraph =
    (graphs r.document r.document.relationships).components.adjacency
  roleGraph : r.document.roleGraph =
    (graphs r.document r.document.relationships).roles.adjacency
  diagnostics : ∀ e ∈ d.diagnostics, e ∈ r.diagnostics
  resolved : ∃ resolved, resolveAll d.symbols.freeze d.references = .ok resolved ∧
    r.document.references = resolved.records ∧
    (∀ e ∈ resolved.diagnostics, e ∈ r.diagnostics) ∧
    ∀ e ∈ r.diagnostics, e.category = .reference → e ∈ d.diagnostics ∨ e ∈ resolved.diagnostics

theorem checked_of_check {s : Settings} {entries : Entries} {r : ValidationResult}
    (h : check s entries = .ok r) : ∃ d, Checked s entries d r := by
  obtain ⟨d, hd, h⟩ := bind_eq_ok.mp h
  obtain ⟨resolved, hresolved, h⟩ := bind_eq_ok.mp h
  obtain ⟨metadata, -, h⟩ := bind_eq_ok.mp h
  cases h
  refine ⟨d, hd, fun layer => ?_, rfl, rfl, rfl, fun e he => ?_, resolved, hresolved, rfl,
    fun e he => ?_, fun e he hcategory => ?_⟩
  · cases layer <;> rfl
  · simp only [List.mem_append, he, true_or, or_true]
  · simp only [List.mem_append, he, true_or, or_true]
  · have hother {c : Category} (h : e.category = c) (hc : c ≠ .reference) : False :=
      hc (h.symm.trans hcategory)
    simp only [List.mem_append, or_assoc] at he
    rcases he with hsection | hlayers | hmetadata | hreferences | hrelations | hcycles | hcross
    · obtain ⟨entry, -, hentry⟩ := List.mem_filterMap.mp hsection
      exact (hother (category_sectionWarning hentry) (by decide)).elim
    · exact .inl hlayers
    · exact (hother (category_metadata hmetadata) (by decide)).elim
    · exact .inr hreferences
    · exact (hother (category_inferRelationships hrelations) (by decide)).elim
    · exact (hother (category_cycleDiagnostics hcycles) (by decide)).elim
    · exact (hother (category_crossChecks hcross) (by decide)).elim

end Document

end AppSpec
