import AppSpec.Proofs.Document.Accepted
import AppSpec.Proofs.Layer.Bindings
import AppSpec.Proofs.Named.Order

/-!
Nothing that a document declares is lost: each entry of a collection is stored under its name, or an
error tells why it is not, and of the entries that share a name the first one accepted is stored.
-/

namespace AppSpec

open SymbolTable (Extends)

/-- What the model stores under a name of a namespace. -/
def DocumentModel.stored? (m : DocumentModel) (ns : Namespace) (name : String) :
    Option Definition :=
  match ns with
  | .entity => (m.entities.get? name).map .entity
  | .customType => (m.customTypes.get? name).map .customType
  | .operation => (m.operations.get? name).map .operation
  | .component => (m.components.get? name).map .component
  | .role => (m.security.roles.get? name).map .role
  | .integration => (m.integrations.get? name).map .integration
  | .resource => (m.resources.get? name).map .resource
  | .error => none
  | .workflow => (m.workflows.get? name).map .workflow
  | .page => (m.pages.get? name).map .page

/-- A collection of declarations as a document writes it, and how its entries are read. -/
structure Collection where
  layer : Layer
  value : Value
  read : RawEntry → Load (Option (AcceptedItem Definition))

namespace Collection

def named {α : Type} (layer : Layer) (define : α → Definition)
    (load : String → Value → String → Load (Option α)) (place : Value × String) : Collection :=
  ⟨layer, place.1, fun e => (e.item place.2).read define load⟩

/-- The place for the declarations of a namespace. Errors are declared by their uses. -/
def ofEntries? (limit : Int) (entries : Entries) : Namespace → Option Collection
  | .customType => (Domain.sections? (entries.field "domain")).map fun s =>
      named .domain .customType (Domain.loadCustomType limit) (s.types, "domain.types")
  | .entity => (Domain.sections? (entries.field "domain")).map fun s =>
      named .domain .entity (Domain.loadEntity limit) (s.entities, s.entitiesPath)
  | .operation => some <| named .logic .operation (Logic.loadOperation limit)
      (unwrapped (entries.field "logic") "logic" "operations")
  | .component => some <| named .components .component Components.loadComponent
      (entries.field "components", "components")
  | .workflow => some <| named .workflow .workflow Workflows.loadWorkflow
      (entries.field "workflow", "workflow")
  | .page => some <| named .ui .page Pages.loadPage (unwrapped (entries.field "ui") "ui" "pages")
  | .role =>
      match entries.field "security" with
      | .dict fields => some ⟨.security, Entries.field fields "roles", Security.readRole⟩
      | _ => none
  | .resource => some <| named .infrastructure .resource Infrastructure.loadResource
      (entries.field "infrastructure", "infrastructure")
  | .integration => some <| named .integrations .integration Integrations.loadIntegration
      (entries.field "integrations", "integrations")
  | .error => none

end Collection

section Accounts

variable {δ : Type}

/-- What becomes of the entries of a collection: each is stored with its path, or there is an error
about it among the diagnostics. Which of the two it is depends on the entries before it. -/
structure Accounts (read : RawEntry → Load (Option (AcceptedItem δ))) (barred : String → Prop)
    (v : Value) (stored : String → Option δ) (paths : Named String) (reported : Diagnostic → Prop)
    (ts : List (Taken δ)) : Prop where
  takes : Takes read barred [] (RawEntry.all v) ts
  stored : ∀ t ∈ ts, ∀ k ∈ t.item, stored k.name = some k.item ∧ paths.get? k.name = some k.path
  blamed : ∀ t ∈ ts, t.item = none → ∃ e ∈ t.diagnostics, e.severity = .error
  reported : ∀ t ∈ ts, ∀ e ∈ t.diagnostics, reported e

end Accounts

/-- The entries of a collection are accounted for, and what is stored is declared as well. -/
def Collection.Accounted (c : Collection) (ns : Namespace) (d : LoadedDocument) (m : DocumentModel)
    (reported : Diagnostic → Prop) : Prop :=
  ∃ ts, Accounts c.read (Barred d.symbols ns) c.value (m.stored? ns) (d.paths c.layer) reported ts ∧
    ∀ t ∈ ts, ∀ k ∈ t.item, d.symbols.find? ns k.name = some ⟨ns, k.name, k.path, some k.item⟩

namespace LoadedDocument

variable {limit : Int} {entries : Entries} {layers : List Layer} {d d' : LoadedDocument}

theorem keeps_loadLayers {P : Symbols → Prop}
    (hP : ∀ spaces, SymbolTable.Invariant Definition.space spaces P) (hd : P d.symbols)
    (h : loadLayers limit entries layers d = .ok d') : P d'.symbols := by
  induction layers generalizing d with
  | nil =>
      cases h
      exact hd
  | cons layer layers ih =>
      obtain ⟨⟨r, u⟩, hload, h⟩ := bind_eq_ok.mp h
      exact ih (Layer.keeps_load (hP _) hd hload) h

theorem exclusive_ofEntries (h : ofEntries limit entries = .ok d) : d.symbols.Exclusive :=
  keeps_loadLayers (fun _ => SymbolTable.invariant_exclusive) SymbolTable.exclusive_empty h

/-! ### Collections -/

variable {α : Type} {ns : Namespace} {define : α → Definition} {layer : Layer} {t : Symbols}
  {r : LayerResult} {u : Symbols} {m : DocumentModel} {reported : Diagnostic → Prop}

/-- What is left of a collection in the document and in its model. -/
structure Leaves (ns : Namespace) (define : α → Definition) (layer : Layer) (d : LoadedDocument)
    (m : DocumentModel) (s : Declared α) : Prop where
  find : ∀ name, d.symbols.find? ns name = s.symbols.find? ns name
  stored : ∀ name, m.stored? ns name = (s.items.get? name).map define
  paths : ∀ {name p}, s.paths.get? name = some p → (d.paths layer).get? name = some p
  diagnostics : ∀ e ∈ s.notes.diagnostics, e ∈ d.diagnostics

theorem accounted_of_leaves {c : Collection} {s : Declared α} (hs : s.Mirrors ns define)
    (hleaves : Leaves ns define c.layer d m s) (hreported : ∀ e ∈ d.diagnostics, reported e)
    (htakes : ∃ ts, Takes c.read (Barred d.symbols ns) [] (RawEntry.all c.value) ts ∧
      (∀ t ∈ ts, ∀ e ∈ t.diagnostics, e ∈ s.notes.diagnostics) ∧
      ∀ t ∈ ts, ∀ k ∈ t.item, d.symbols.find? ns k.name = some ⟨ns, k.name, k.path, some k.item⟩) :
    c.Accounted ns d m reported := by
  obtain ⟨ts, hts, hdiagnostics, hdeclared⟩ := htakes
  refine ⟨ts, ⟨hts, fun t ht k hk => ⟨?_, hleaves.paths ?_⟩, hts.blamed, fun t ht e he => ?_⟩, hdeclared⟩
  · rw [hleaves.stored, hs.items, SymbolTable.lookup?, ← hleaves.find, hdeclared t ht k hk]
    rfl
  · rw [hs.paths, SymbolTable.path?, ← hleaves.find, hdeclared t ht k hk]
    rfl
  · exact hreported e (hleaves.diagnostics e (hdiagnostics t ht e he))

theorem accounted_of_empty {c : Collection} (h : RawEntry.all c.value = []) :
    c.Accounted ns d m reported := by
  refine ⟨[], ⟨?_, List.forall_mem_nil _, List.forall_mem_nil _, List.forall_mem_nil _⟩,
    List.forall_mem_nil _⟩
  rw [h]
  exact .nil

theorem Loaded.diagnostics (h : Loaded limit entries d layer t r u) :
    ∀ e ∈ r.notes.diagnostics, e ∈ d.diagnostics :=
  fun _ he => List.mem_flatMap.mpr ⟨r, h.mem, he⟩

theorem Loaded.references (h : Loaded limit entries d layer t r u) :
    ∀ e ∈ r.notes.references, e ∈ d.references :=
  fun _ he => List.mem_flatMap.mpr ⟨r, h.mem, he⟩

/-- A layer that is one collection accounts for its entries. -/
theorem accounted_collected {data : Named α → LayerData} {place : Value × String}
    {load : String → Value → String → Load (Option α)} (hd : ofEntries limit entries = .ok d)
    (hm : m.part layer = (DocumentModel.ofLayers d).part layer)
    (hlayer : layer.IsCollection limit (entries.field layer.label) data ns define load place)
    (hns : ns ≠ .error) (hbefore : ns ∉ layer.before.flatMap Layer.declares)
    (hafter : ns ∉ layer.after.flatMap Layer.declares)
    (hstored : ∀ items, m.part layer = (DocumentModel.withLayer {} (data items)).part layer →
      ∀ name, m.stored? ns name = (items.get? name).map define)
    (hload : ∀ name body path, (load name body path).Blames)
    (hreported : ∀ e ∈ d.diagnostics, reported e) :
    (Collection.named layer define load place).Accounted ns d m reported := by
  obtain ⟨t, r, u, hl⟩ := exists_loaded hd layer
  obtain ⟨s, hs, hdeclared⟩ := hl.exists_declared hlayer
  have hfresh := hl.fresh hns hbefore
  refine accounted_of_leaves (mirrors_declareAll hns hl.unfrozen hfresh hs)
    ⟨fun name => hdeclared.symbols ▸ hl.kept hns hafter name, hstored _ (hm.trans hdeclared.part),
      fun hpath => ?_, fun e he => hl.diagnostics e (hdeclared.diagnostics e he)⟩ hreported
    (takes_declareAll hns hl.unfrozen hfresh hload hs (hdeclared.symbols ▸ hl.after)
      (exclusive_ofEntries hd))
  show (d.paths layer).get? _ = _
  rw [hdeclared.paths]
  exact hpath

/-- How the two collections of the domain layer were loaded, one after the other. -/
structure LoadedDomain (limit : Int) (d : LoadedDocument) (s : Domain.Sections) (t : Symbols)
    (types : Declared CustomType) (entities : Declared Entity) : Prop where
  loadTypes : declareAll .customType .customType (Domain.loadCustomType limit) s.types
    "domain.types" t = .ok types
  loadEntities : declareAll .entity .entity (Domain.loadEntity limit) s.entities s.entitiesPath
    types.symbols = .ok entities
  unfrozen : t.frozen = false
  fresh : ∀ name, t.find? .customType name = none ∧ t.find? .entity name = none
  after : entities.symbols.Extends (Layer.domain.after.flatMap Layer.declares) d.symbols
  part : (DocumentModel.ofLayers d).part .domain = .domain ⟨types.items, entities.items⟩
  paths : d.paths .domain = types.paths.setAll entities.paths
  diagnostics : ∀ e ∈ types.notes.diagnostics ++ entities.notes.diagnostics, e ∈ d.diagnostics
  references : ∀ e ∈ types.notes.references ++ entities.notes.references, e ∈ d.references
  exclusive : d.symbols.Exclusive

theorem exists_loadedDomain {s : Domain.Sections} (hd : ofEntries limit entries = .ok d)
    (hs : Domain.sections? (entries.field "domain") = some s) :
    ∃ t types entities, LoadedDomain limit d s t types entities := by
  obtain ⟨t, r, u, hl⟩ := exists_loaded hd .domain
  have hr : Layer.load limit .domain (entries.field "domain") t = .ok (r, u) := hl.load
  rw [Layer.load] at hr
  split at hr
  · next hnull =>
      rw [Value.eq_null_of_isNull hnull] at hs
      cases hs
  · obtain ⟨⟨loaded, notes, symbols⟩, hloaded, hr⟩ := bind_eq_ok.mp hr
    cases hr
    rw [Domain.load, hs] at hloaded
    obtain ⟨types, htypes, hloaded⟩ := bind_eq_ok.mp hloaded
    obtain ⟨entities, hentities, hloaded⟩ := bind_eq_ok.mp hloaded
    cases hloaded
    exact ⟨t, types, entities, htypes, hentities, hl.unfrozen,
      fun name => ⟨hl.fresh (by decide) (by decide) name, hl.fresh (by decide) (by decide) name⟩,
      hl.after, hl.part, hl.paths, hl.diagnostics, hl.references, exclusive_ofEntries hd⟩

namespace LoadedDomain

variable {s : Domain.Sections} {types : Declared CustomType} {entities : Declared Entity}

theorem between (h : LoadedDomain limit d s t types entities) :
    t.Extends [.customType] types.symbols := extends_declareAll h.loadTypes

theorem last (h : LoadedDomain limit d s t types entities) :
    types.symbols.Extends [.entity] entities.symbols := extends_declareAll h.loadEntities

theorem unfrozen_between (h : LoadedDomain limit d s t types entities) :
    types.symbols.frozen = false := h.between.frozen.trans h.unfrozen

theorem fresh_between (h : LoadedDomain limit d s t types entities) (name : String) :
    types.symbols.find? .entity name = none :=
  (h.between.find?_eq (by decide) (by decide) name).trans (h.fresh name).2

theorem mirrors_types (h : LoadedDomain limit d s t types entities) :
    types.Mirrors .customType .customType :=
  mirrors_declareAll (by decide) h.unfrozen (fun name => (h.fresh name).1) h.loadTypes

theorem mirrors_entities (h : LoadedDomain limit d s t types entities) :
    entities.Mirrors .entity .entity :=
  mirrors_declareAll (by decide) h.unfrozen_between h.fresh_between h.loadEntities

theorem find_types (h : LoadedDomain limit d s t types entities) (name : String) :
    d.symbols.find? .customType name = types.symbols.find? .customType name :=
  (h.after.find?_eq (by decide) (by decide) name).trans
    (h.last.find?_eq (by decide) (by decide) name)

theorem find_entities (h : LoadedDomain limit d s t types entities) (name : String) :
    d.symbols.find? .entity name = entities.symbols.find? .entity name :=
  h.after.find?_eq (by decide) (by decide) name

theorem get?_paths (h : LoadedDomain limit d s t types entities) (name : String) :
    (d.paths .domain).get? name = (entities.paths.get? name).or (types.paths.get? name) := by
  rw [h.paths]
  exact Named.get?_setAll h.mirrors_entities.nodupPaths types.paths name

/-- A type that is kept is declared, so no entity has its name. -/
theorem get?_paths_type (h : LoadedDomain limit d s t types entities) {name path : String}
    (hpath : types.paths.get? name = some path) : (d.paths .domain).get? name = some path := by
  have hhas : d.symbols.has .customType name = true := by
    rw [h.mirrors_types.paths, SymbolTable.path?, ← h.find_types] at hpath
    obtain ⟨declaration, hfound, -⟩ := Option.map_eq_some_iff.mp hpath
    rw [SymbolTable.has, hfound]
    rfl
  have hnone : entities.paths.get? name = none := by
    have hother := h.exclusive .customType .entity name rfl hhas
    rw [SymbolTable.has, Option.isSome_eq_false_iff, Option.isNone_iff_eq_none] at hother
    rw [h.mirrors_entities.paths, SymbolTable.path?, ← h.find_entities, hother]
    rfl
  rw [h.get?_paths, hnone, Option.none_or, hpath]

theorem accounted_types (h : LoadedDomain limit d s t types entities)
    (hm : m.part .domain = (DocumentModel.ofLayers d).part .domain)
    (hreported : ∀ e ∈ d.diagnostics, reported e) :
    (Collection.named .domain .customType (Domain.loadCustomType limit)
      (s.types, "domain.types")).Accounted .customType d m reported := by
  have hstored : m.customTypes = types.items :=
    congrArg Domain.Loaded.customTypes (LayerData.domain.inj (hm.trans h.part))
  refine accounted_of_leaves h.mirrors_types ⟨h.find_types, fun name => ?_, h.get?_paths_type,
    fun e he => h.diagnostics e (List.mem_append_left _ he)⟩ hreported ?_
  · rw [DocumentModel.stored?, hstored]
  · exact takes_declareAll (by decide) h.unfrozen (fun name => (h.fresh name).1)
      (Domain.blames_loadCustomType limit) h.loadTypes (h.last.append h.after) h.exclusive

theorem accounted_entities (h : LoadedDomain limit d s t types entities)
    (hm : m.part .domain = (DocumentModel.ofLayers d).part .domain)
    (hreported : ∀ e ∈ d.diagnostics, reported e) :
    (Collection.named .domain .entity (Domain.loadEntity limit)
      (s.entities, s.entitiesPath)).Accounted .entity d m reported := by
  have hstored : m.entities = entities.items :=
    congrArg Domain.Loaded.entities (LayerData.domain.inj (hm.trans h.part))
  refine accounted_of_leaves h.mirrors_entities ⟨h.find_entities, fun name => ?_,
    fun {name p} hpath => ?_, fun e he => h.diagnostics e (List.mem_append_right _ he)⟩ hreported ?_
  · rw [DocumentModel.stored?, hstored]
  · show (d.paths .domain).get? name = some p
    rw [h.get?_paths, hpath, Option.some_or]
  · exact takes_declareAll (by decide) h.unfrozen_between h.fresh_between
      (Domain.blames_loadEntity limit) h.loadEntities h.after h.exclusive

end LoadedDomain

/-- Roles are read in forms of their own. -/
theorem accounted_security {fields : Entries} (hd : ofEntries limit entries = .ok d)
    (hm : m.part .security = (DocumentModel.ofLayers d).part .security)
    (hfields : entries.field "security" = .dict fields)
    (hreported : ∀ e ∈ d.diagnostics, reported e) :
    Collection.Accounted ⟨.security, Entries.field fields "roles", Security.readRole⟩ .role d m
      reported := by
  by_cases hentries : RawEntry.all (Entries.field fields "roles") = []
  · exact accounted_of_empty hentries
  obtain ⟨t, r, u, hl⟩ := exists_loaded hd .security
  have hr := hl.load
  rw [Layer.load, show entries.field Layer.security.label = .dict fields from hfields] at hr
  obtain ⟨⟨loaded, notes, symbols⟩, hloaded, hr⟩ := bind_eq_ok.mp hr
  cases hr
  obtain ⟨⟨entries?, first⟩, hsection, hloaded⟩ := bind_eq_ok.mp hloaded
  cases hsection
  obtain ⟨⟨items, more⟩, hitems, hloaded⟩ := bind_eq_ok.mp hloaded
  obtain ⟨roles, hroles, hloaded⟩ := bind_eq_ok.mp hloaded
  obtain ⟨⟨policy, last⟩, hpolicy, hloaded⟩ := bind_eq_ok.mp hloaded
  cases hloaded
  have hfresh (name : String) : t.find? .role name = none := hl.fresh (by decide) (by decide) name
  have hmirrors : roles.Mirrors .role .role :=
    (Declared.mirrors_start hfresh more).steps (by decide) hl.unfrozen hroles
  have hpolicies := LayerData.security.inj (hm.trans hl.part)
  refine accounted_of_leaves hmirrors
    ⟨fun name => hl.kept (by decide) (by decide) name, fun name => ?_, fun {name p} hpath => ?_,
      fun e he => hl.diagnostics e (List.mem_append_left _ he)⟩ hreported ?_
  · rw [DocumentModel.stored?, congrArg SecurityPolicy.roles hpolicies]
    exact congrArg (Option.map Definition.role <| Named.get? · name)
      (Security.loadPolicy_roles hpolicy)
  · show (d.paths .security).get? name = some p
    rw [hl.paths]
    exact hpath
  · exact takes_items (by decide) hl.unfrozen hfresh Security.blames_loadRole
      (Security.severity_roleItems hitems hentries)
      ((Security.forall₂_roleItems hitems).resolve_left hentries) hroles hl.after
      (exclusive_ofEntries hd)

/-- The mapping layer declares nothing; what its entries bind is stored. -/
theorem accounts_mapping (hd : ofEntries limit entries = .ok d)
    (hm : m.part .mapping = (DocumentModel.ofLayers d).part .mapping)
    (hreported : ∀ e ∈ d.diagnostics, reported e) :
    ∃ ts, Accounts Mapping.readEntry (fun _ => False) (entries.field "mapping") m.mapping.get?
      (d.paths .mapping) reported ts := by
  obtain ⟨t, r, u, hl⟩ := exists_loaded hd .mapping
  have hr := hl.load
  rw [Layer.load] at hr
  split at hr
  · next hnull =>
      have hnone : entries.field "mapping" = .null := Value.eq_null_of_isNull hnull
      refine ⟨[], ?_, List.forall_mem_nil _, List.forall_mem_nil _, List.forall_mem_nil _⟩
      rw [hnone]
      exact .nil
  · obtain ⟨⟨loaded, notes⟩, hloaded, hr⟩ := bind_eq_ok.mp hr
    obtain ⟨ts, htakes, hdiagnostics, hstored⟩ := Mapping.takes_load hloaded
    refine ⟨ts, htakes, fun x hx k hk => ?_, htakes.blamed, fun x hx e he => ?_⟩
    · obtain ⟨bound, rfl, hentry, hpath⟩ := hstored x hx k hk
      cases hr
      refine ⟨?_, ?_⟩
      · rw [LayerData.mapping.inj (hm.trans hl.part)]
        exact hentry
      · rw [hl.paths]
        exact hpath
    · have hnotes : r.notes.diagnostics = notes.diagnostics := by
        cases loaded <;> cases hr <;> rfl
      exact hreported e (hl.diagnostics e (hnotes ▸ hdiagnostics x hx e he))

theorem accounted_ofEntries {c : Collection} (hd : ofEntries limit entries = .ok d)
    (hm : ∀ layer, m.part layer = (DocumentModel.ofLayers d).part layer)
    (hc : Collection.ofEntries? limit entries ns = some c)
    (hreported : ∀ e ∈ d.diagnostics, reported e) : c.Accounted ns d m reported := by
  cases ns with
  | entity =>
      obtain ⟨s, hs, rfl⟩ := Option.map_eq_some_iff.mp hc
      obtain ⟨t, types, entities, hdomain⟩ := exists_loadedDomain hd hs
      exact hdomain.accounted_entities (hm _) hreported
  | customType =>
      obtain ⟨s, hs, rfl⟩ := Option.map_eq_some_iff.mp hc
      obtain ⟨t, types, entities, hdomain⟩ := exists_loadedDomain hd hs
      exact hdomain.accounted_types (hm _) hreported
  | role =>
      rw [Collection.ofEntries?] at hc
      split at hc
      · next fields hfields =>
          cases hc
          exact accounted_security hd (hm _) hfields hreported
      · cases hc
  | error => cases hc
  | operation =>
      cases hc
      refine accounted_collected hd (hm _) (Layer.isCollection_logic limit _) (by decide) (by decide)
        (by decide) (fun items h name => ?_) (Logic.blames_loadOperation limit) hreported
      rw [DocumentModel.stored?, LayerData.logic.inj h]
      rfl
  | component =>
      cases hc
      refine accounted_collected hd (hm _) (Layer.isCollection_components limit _) (by decide) (by decide)
        (by decide) (fun items h name => ?_) Components.blames_loadComponent hreported
      rw [DocumentModel.stored?, LayerData.components.inj h]
      rfl
  | workflow =>
      cases hc
      refine accounted_collected hd (hm _) (Layer.isCollection_workflow limit _) (by decide) (by decide)
        (by decide) (fun items h name => ?_) Workflows.blames_loadWorkflow hreported
      rw [DocumentModel.stored?, LayerData.workflow.inj h]
      rfl
  | page =>
      cases hc
      refine accounted_collected hd (hm _) (Layer.isCollection_ui limit _) (by decide) (by decide)
        (by decide) (fun items h name => ?_) Pages.blames_loadPage hreported
      rw [DocumentModel.stored?, LayerData.ui.inj h]
      rfl
  | resource =>
      cases hc
      refine accounted_collected hd (hm _) (Layer.isCollection_infrastructure limit _) (by decide) (by decide)
        (by decide) (fun items h name => ?_) Infrastructure.blames_loadResource hreported
      rw [DocumentModel.stored?, LayerData.infrastructure.inj h]
      rfl
  | integration =>
      cases hc
      refine accounted_collected hd (hm _) (Layer.isCollection_integrations limit _) (by decide) (by decide)
        (by decide) (fun items h name => ?_) Integrations.blames_loadIntegration hreported
      rw [DocumentModel.stored?, LayerData.integrations.inj h]
      rfl

end LoadedDocument

namespace Document

/-- Two resources of one name, and an item that has none. -/
def repeatedRecords : RawGraph :=
  let record : Value := .dict [(.str "name", .str "records"), (.str "type", .str "database")]
  ⟨#[], .value (.dict [(.str "infrastructure", .list [record, record, .int 5])])⟩

end Document

end AppSpec
