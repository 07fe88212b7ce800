import AppSpec.Proofs.Document.Accepted
import AppSpec.Proofs.Layer.Isolation
import AppSpec.Proofs.Reference.Relationships
import AppSpec.Proofs.Value.Reordered

/-!
Layers do not get in each other's way: what the model holds of a layer depends on that layer alone.
Only integrations share their names with a layer before them, the components.
-/

namespace AppSpec

/-- What a document holds for a layer; nothing where it is no mapping. -/
def Value.layer (v : Value) (layer : Layer) : Value :=
  match v with
  | .dict entries => Entries.field entries layer.label
  | _ => .null

namespace DocumentModel

/-- Two models are the same in all that belongs to a layer. -/
def SamePart : Layer → DocumentModel → DocumentModel → Prop
  | .project, m, m' => m.project = m'.project
  | .domain, m, m' => m.customTypes = m'.customTypes ∧ m.entities = m'.entities ∧
      m.relationships = m'.relationships
  | .logic, m, m' => m.operations = m'.operations
  | .components, m, m' => m.components = m'.components ∧ m.componentGraph = m'.componentGraph
  | .workflow, m, m' => m.workflows = m'.workflows
  | .ui, m, m' => m.pages = m'.pages
  | .security, m, m' => m.security = m'.security ∧ m.roleGraph = m'.roleGraph
  | .infrastructure, m, m' => m.resources = m'.resources
  | .integrations, m, m' => m.integrations = m'.integrations
  | .mapping, m, m' => m.mapping = m'.mapping

end DocumentModel

namespace LoadedDocument

variable {limit : Int} {entries entries' : Entries} {d d' : LoadedDocument} {layer : Layer}
  {t t' u u' : Symbols} {r r' : LayerResult} {ns : Namespace}

/-- A layer other than integrations looks up no name that a layer before it may declare. -/
theorem not_mem_before_reads (hlayer : layer ≠ .integrations) (hns : ns ∈ layer.reads) :
    ns ∉ layer.before.flatMap Layer.declares := by
  cases layer <;> first | contradiction | (cases ns <;> revert hns <;> decide)

theorem Loaded.kept_before (h : Loaded limit entries d layer t r u) (herror : ns ≠ .error)
    (hlayer : ns ∉ layer.declares) (hafter : ns ∉ layer.after.flatMap Layer.declares)
    (name : String) : d.symbols.find? ns name = t.find? ns name := by
  rw [h.kept herror hafter, (Layer.extends_load h.load).find?_eq herror hlayer]

theorem Loaded.agrees (h : Loaded limit entries d layer t r u)
    (h' : Loaded limit entries' d' layer t' r' u')
    (hsame : entries.field layer.label = entries'.field layer.label)
    (ht : t.Agree layer.reads t') : r = r' ∧ u.Agree layer.reads u' := by
  obtain ⟨w, hload, hw⟩ := Layer.agrees_load ht h.load
  rw [hsame, h'.load] at hload
  cases hload
  exact ⟨rfl, hw⟩

theorem Loaded.agrees_apart (h : Loaded limit entries d layer t r u)
    (h' : Loaded limit entries' d' layer t' r' u') (hlayer : layer ≠ .integrations)
    (hsame : entries.field layer.label = entries'.field layer.label) :
    r = r' ∧ u.Agree layer.reads u' := by
  refine h.agrees h' hsame ⟨h.unfrozen, h'.unfrozen, fun ns hns name => ?_⟩
  have herror : ns ≠ .error := by
    rintro rfl
    revert hns
    cases layer <;> decide
  have hbefore := not_mem_before_reads hlayer hns
  rw [h.fresh herror hbefore, h'.fresh herror hbefore]

/-- Integrations are loaded next to the components of the same document. -/
theorem Loaded.agrees_integrations (h : Loaded limit entries d .integrations t r u)
    (h' : Loaded limit entries' d' .integrations t' r' u')
    (hd : ofEntries limit entries = .ok d) (hd' : ofEntries limit entries' = .ok d')
    (hsame : entries.field "integrations" = entries'.field "integrations")
    (hcomponents : entries.field "components" = entries'.field "components") : r = r' := by
  obtain ⟨w, q, x, hc⟩ := exists_loaded hd .components
  obtain ⟨w', q', x', hc'⟩ := exists_loaded hd' .components
  have hagree := (hc.agrees_apart hc' (by decide) hcomponents).2
  refine (h.agrees h' hsame ⟨h.unfrozen, h'.unfrozen, fun ns hns name => ?_⟩).1
  have hns : ns = .integration ∨ ns = .component := by
    revert hns
    cases ns <;> decide
  rcases hns with rfl | rfl
  · rw [h.fresh (by decide) (by decide), h'.fresh (by decide) (by decide)]
  · rw [← h.kept_before (by decide) (by decide) (by decide),
      ← h'.kept_before (by decide) (by decide) (by decide), hc.kept (by decide) (by decide),
      hc'.kept (by decide) (by decide), hagree.find _ (by decide)]

end LoadedDocument

namespace Document

open LoadedDocument (exists_loaded)

variable {s : Settings} {entries entries' : Entries} {d d' : LoadedDocument} {layer : Layer}
  {q q' : ValidationResult}

theorem Checked.part_eq (h : Checked s entries d q) (h' : Checked s entries' d' q')
    (hsame : entries.field layer.label = entries'.field layer.label)
    (hcomponents : layer = .integrations → entries.field "components" = entries'.field "components") :
    q.document.part layer = q'.document.part layer := by
  obtain ⟨t, r, u, hl⟩ := exists_loaded h.loaded layer
  obtain ⟨t', r', u', hl'⟩ := exists_loaded h'.loaded layer
  have hr : r = r' := by
    by_cases hlayer : layer = .integrations
    · subst hlayer
      exact hl.agrees_integrations hl' h.loaded h'.loaded hsame (hcomponents rfl)
    · exact (hl.agrees_apart hl' hlayer hsame).1
  rw [h.part, h'.part, hl.part, hl'.part, hr]

theorem Checked.relationships_eq (h : Checked s entries d q) (h' : Checked s entries' d' q')
    (hsame : entries.field "domain" = entries'.field "domain")
    (hentities : q.document.entities = q'.document.entities) :
    q.document.relationships = q'.document.relationships := by
  obtain ⟨t, r, u, hl⟩ := exists_loaded h.loaded .domain
  obtain ⟨t', r', u', hl'⟩ := exists_loaded h'.loaded .domain
  obtain ⟨hr, hagree⟩ := hl.agrees_apart hl' (by decide) hsame
  have hnames : SameEntities d.symbols.freeze d'.symbols.freeze := by
    intro name
    have hfind : d.symbols.find? .entity name = d'.symbols.find? .entity name := by
      rw [hl.kept (by decide) (by decide), hl'.kept (by decide) (by decide),
        hagree.find _ (by decide)]
    exact congrArg Option.isSome hfind
  have hfields : Relationships.ofEntity d.symbols.freeze r'.notes.paths =
      Relationships.ofEntity d'.symbols.freeze r'.notes.paths :=
    Relationships.ofEntity_congr hnames fun _ => rfl
  rw [h.relationships, h'.relationships, inferRelationships, inferRelationships, ← hentities,
    hl.paths, hl'.paths, hr, hfields]

theorem samePart_of_part (h : Checked s entries d q) (h' : Checked s entries' d' q')
    (hsame : entries.field layer.label = entries'.field layer.label)
    (hpart : q.document.part layer = q'.document.part layer) :
    DocumentModel.SamePart layer q.document q'.document := by
  cases layer with
  | project =>
      have hproject : (q.document.project.map LayerData.project).getD .nothing =
          (q'.document.project.map LayerData.project).getD .nothing := hpart
      show q.document.project = q'.document.project
      generalize q.document.project = info at hproject
      generalize q'.document.project = info' at hproject
      cases info <;> cases info' <;> cases hproject <;> rfl
  | domain =>
      have hdomain := LayerData.domain.inj hpart
      have htypes : q.document.customTypes = q'.document.customTypes :=
        congrArg Domain.Loaded.customTypes hdomain
      have hentities : q.document.entities = q'.document.entities :=
        congrArg Domain.Loaded.entities hdomain
      exact ⟨htypes, hentities, h.relationships_eq h' hsame hentities⟩
  | components =>
      have hcomponents : q.document.components = q'.document.components :=
        LayerData.components.inj hpart
      refine ⟨hcomponents, ?_⟩
      rw [h.componentGraph, h'.componentGraph, graphs, graphs, hcomponents]
  | security =>
      have hsecurity : q.document.security = q'.document.security := LayerData.security.inj hpart
      refine ⟨hsecurity, ?_⟩
      rw [h.roleGraph, h'.roleGraph, graphs, graphs, hsecurity]
  | logic => exact LayerData.logic.inj hpart
  | workflow => exact LayerData.workflow.inj hpart
  | ui => exact LayerData.ui.inj hpart
  | infrastructure => exact LayerData.infrastructure.inj hpart
  | integrations => exact LayerData.integrations.inj hpart
  | mapping => exact LayerData.mapping.inj hpart

/-- What the model holds of a layer does not depend on the other sections of a document. -/
theorem validateGraph_isolated {g g' : RawGraph} {positions positions' : Positions}
    {r r' : ValidationResult} (hr : validateGraph s g positions = .ok r)
    (hr' : validateGraph s g' positions' = .ok r') (hfatal : ∀ d ∈ r.diagnostics, d.severity ≠ .fatal)
    (hfatal' : ∀ d ∈ r'.diagnostics, d.severity ≠ .fatal)
    (hsame : g.value.layer layer = g'.value.layer layer)
    (hcomponents : layer = .integrations →
      g.value.layer .components = g'.value.layer .components) :
    DocumentModel.SamePart layer r.document r'.document := by
  obtain ⟨hentries, hfinite⟩ := finite_of_not_fatal hr hfatal
  obtain ⟨hentries', hfinite'⟩ := finite_of_not_fatal hr' hfatal'
  obtain ⟨entries, d, q, hvalue, hchecked, rfl⟩ := exists_checked hr hentries hfinite
  obtain ⟨entries', d', q', hvalue', hchecked', rfl⟩ := exists_checked hr' hentries' hfinite'
  rw [hvalue, hvalue'] at hsame hcomponents
  have hpart : q.document.part layer = q'.document.part layer :=
    hchecked.part_eq hchecked' hsame hcomponents
  exact (samePart_of_part hchecked hchecked' hsame hpart :
    DocumentModel.SamePart layer q.document q'.document)

def workforce (others : Entries) : RawGraph :=
  ⟨#[], .value (.dict ((.str "domain", .mapping
    [("Employee", .mapping [("manager", .str "optional[Employee]")])]) :: others))⟩

def storage : Entries :=
  [(.str "infrastructure", .mapping [("records", .str "database")])]

theorem validateGraph_isolated_workforce :
    ∃ r r', validateGraph {} (workforce []) = .ok r ∧ validateGraph {} (workforce storage) = .ok r' ∧
      (workforce []).value.layer .domain = (workforce storage).value.layer .domain ∧
      DocumentModel.SamePart .domain r.document r'.document := by
  have hmild (g : RawGraph) (h : (match validateGraph {} g with
        | .ok r => r.diagnostics.all fun d => decide (d.severity ≠ .fatal)
        | .error _ => false) = true) :
      ∃ r, validateGraph {} g = .ok r ∧ ∀ d ∈ r.diagnostics, d.severity ≠ .fatal := by
    cases hr : validateGraph {} g with
    | error e =>
        rw [hr] at h
        cases h
    | ok r =>
        rw [hr] at h
        exact ⟨r, rfl, fun d hd => of_decide_eq_true (List.all_eq_true.mp h d hd)⟩
  obtain ⟨r, hr, hfatal⟩ := hmild (workforce []) (by decide +kernel)
  obtain ⟨r', hr', hfatal'⟩ := hmild (workforce storage) (by decide +kernel)
  exact ⟨r, r', hr, hr', rfl, validateGraph_isolated hr hr' hfatal hfatal' rfl nofun⟩

end Document

end AppSpec
