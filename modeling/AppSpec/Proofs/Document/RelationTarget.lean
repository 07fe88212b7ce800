import AppSpec.Proofs.Document.Accounted
import AppSpec.Proofs.Document.Integrity
import AppSpec.Proofs.Document.Placed
import AppSpec.Proofs.Layer.EntityFields
import AppSpec.Proofs.Reference.Inference
import AppSpec.Proofs.Reference.Resolution

/-!
Fields that state a relation and its target. The two are read together from all wrappers of the
field's type, and the field gives a relationship if the target is an entity. If it is none, that is
reported where one node of the type holds both, but it need not be where different nodes hold them.
-/

namespace AppSpec

namespace TypeExpr

variable {τ : TypeExpr} {target path : String} {notes : Notes}

/-- One node of the type holds a relation and its target. -/
def Relates (τ : TypeExpr) (target : String) : Prop :=
  ∃ node ∈ τ.nodes, node.relationTarget? = some target

theorem Relates.mem_references (h : τ.Relates target) (path : String) :
    (⟨path, target, [.entity], .relation⟩ : DeferredReference) ∈ τ.references path := by
  obtain ⟨node, hnode, htarget⟩ := h
  exact List.mem_append_right _
    (List.mem_map_of_mem (List.mem_filterMap.mpr ⟨node, hnode, htarget⟩))

/-- A type that is written in place as a mapping states nothing. -/
theorem Deferred.references_subset (h : τ.Deferred path notes)
    (htarget : τ.statedTarget? = some target) : τ.references path ⊆ notes.references := by
  refine h.resolve_right ?_
  rintro ⟨fields, rfl⟩
  cases htarget

end TypeExpr

namespace RawGraph

/-- The entries of the document among which its entities are. -/
def entityItems (g : RawGraph) : List CollectionItem :=
  match g.value with
  | .dict entries =>
      match Domain.sections? (Entries.field entries "domain") with
      | some s => (RawEntry.all s.entities).map (RawEntry.item s.entitiesPath)
      | none => []
  | _ => []

/-- The document writes the entity under the name, and the fields of it below the path. -/
def Writes (g : RawGraph) (limit : Int) (name : String) (e : Entity) (path : String) : Prop :=
  ∃ body place notes, .named name body place ∈ g.entityItems ∧
    Domain.loadEntity limit name body place = .ok (some e, notes) ∧
    path = Domain.fieldsPath body place

end RawGraph

/-- What is left of the entities that a document writes. -/
structure LoadedEntities (limit : Int) (g : RawGraph) (d : LoadedDocument) (es : Named Entity) :
    Prop where
  written : ∀ entry ∈ es, ∃ path, g.Writes limit entry.1 entry.2 path
  loaded : ∀ name e path, g.Writes limit name e path →
    e.name = name ∧ ∃ notes, notes.references ⊆ d.references ∧
      Domain.FieldsLoaded path e.fields notes
  nodup : es.keys.Nodup
  declared : ∀ name, name ∈ es.keys ↔ name ∈ d.symbols.freeze.names .entity

namespace LoadedDocument

variable {limit : Int} {entries : Entries} {d : LoadedDocument} {g : RawGraph}

theorem entities_of_no_sections (hd : ofEntries limit entries = .ok d)
    (hs : Domain.sections? (entries.field "domain") = none) :
    (DocumentModel.ofLayers d).entities = [] := by
  obtain ⟨t, r, u, hl⟩ := exists_loaded hd .domain
  have hr : Layer.load limit .domain (entries.field "domain") t = .ok (r, u) := hl.load
  have hnothing : r.data = .nothing := by
    rw [Layer.load] at hr
    split at hr
    · cases hr
      rfl
    · obtain ⟨⟨loaded, notes, symbols⟩, hloaded, hr⟩ := bind_eq_ok.mp hr
      rw [Domain.load, hs] at hloaded
      cases hloaded
      cases hr
      rfl
  have hpart := hl.part
  rw [hnothing] at hpart
  exact congrArg Domain.Loaded.entities (LayerData.domain.inj hpart)

theorem declared_entities (hd : ofEntries limit entries = .ok d) {name : String}
    (h : name ∈ d.symbols.freeze.names .entity) :
    name ∈ (DocumentModel.ofLayers d).entities.keys := by
  have hhas : d.symbols.has .entity name = true := SymbolTable.mem_names.mp h
  exact ((sound_ofEntries hd).declared .entity name hhas).resolve_left (by decide)

theorem LoadedDomain.loadedEntities {s : Domain.Sections} {t : Symbols} {types : Declared CustomType}
    {entities : Declared Entity} (h : LoadedDomain limit d s t types entities)
    (hitems : g.entityItems = (RawEntry.all s.entities).map (RawEntry.item s.entitiesPath))
    (hdeclared : ∀ name ∈ d.symbols.freeze.names .entity, name ∈ entities.items.keys) :
    LoadedEntities limit g d entities.items := by
  have hcovers := covers_declareAll h.loadEntities
  rw [← hitems] at hcovers
  refine ⟨fun entry hentry => ?_, ?_, h.mirrors_entities.nodupItems,
    fun name => ⟨fun hname => ?_, hdeclared name⟩⟩
  · obtain ⟨body, place, notes, hitem, hload⟩ := hcovers.loaded entry hentry
    exact ⟨_, body, place, notes, hitem, hload, rfl⟩
  · rintro name e _ ⟨body, place, notes, hitem, hload, rfl⟩
    obtain ⟨hname, hfields⟩ := Domain.fieldsLoaded_loadEntity hload
    -- Of an entry that was turned down the references are left as well.
    obtain ⟨a, notes', hload', hnoted⟩ := hcovers.noted name body place hitem
    cases hload.symm.trans hload'
    refine ⟨hname, notes, fun reference hreference => ?_, hfields⟩
    exact h.references reference (List.mem_append_right _ (hnoted hreference))
  · rw [← Named.has_iff_mem_keys] at hname
    obtain ⟨e, he⟩ := Option.isSome_iff_exists.mp hname
    have hlookup := h.mirrors_entities.items name
    rw [he, SymbolTable.lookup?, ← h.find_entities] at hlookup
    obtain ⟨declaration, hfound, -⟩ := Option.bind_eq_some_iff.mp hlookup.symm
    refine SymbolTable.mem_names.mpr ?_
    rw [SymbolTable.has, show d.symbols.freeze.find? .entity name = some declaration from hfound]
    rfl

theorem loadedEntities (hd : ofEntries limit entries = .ok d) (hg : g.value = .dict entries) :
    LoadedEntities limit g d (DocumentModel.ofLayers d).entities := by
  have hdeclared (name : String) (h : name ∈ d.symbols.freeze.names .entity) :
      name ∈ (DocumentModel.ofLayers d).entities.keys := declared_entities hd h
  have hitems : g.entityItems = match Domain.sections? (entries.field "domain") with
      | some s => (RawEntry.all s.entities).map (RawEntry.item s.entitiesPath)
      | none => [] := by
    rw [RawGraph.entityItems, hg]
  cases hs : Domain.sections? (entries.field "domain") with
  | none =>
      rw [hs] at hitems
      rw [entities_of_no_sections hd hs] at hdeclared ⊢
      have hnone (name : String) (e : Entity) (path : String) : ¬ g.Writes limit name e path := by
        rintro ⟨body, place, notes, hitem, -⟩
        rw [hitems] at hitem
        cases hitem
      exact ⟨nofun, fun name e path h => absurd h (hnone name e path), .nil,
        fun name => ⟨nofun, hdeclared name⟩⟩
  | some s =>
      rw [hs] at hitems
      obtain ⟨t, types, entities, hdomain⟩ := exists_loadedDomain hd hs
      have hentities : (DocumentModel.ofLayers d).entities = entities.items :=
        congrArg Domain.Loaded.entities (LayerData.domain.inj hdomain.part)
      rw [hentities] at hdeclared ⊢
      exact hdomain.loadedEntities hitems hdeclared

end LoadedDocument

namespace LoadedEntities

variable {limit : Int} {g : RawGraph} {d : LoadedDocument} {es : Named Entity}

theorem named (h : LoadedEntities limit g d es) {entry : String × Entity} (hentry : entry ∈ es) :
    entry.2.name = entry.1 := by
  obtain ⟨path, hpath⟩ := h.written entry hentry
  exact (h.loaded _ _ _ hpath).1

theorem distinct (h : LoadedEntities limit g d es) : Relationships.Distinct es.values := by
  constructor
  · have hnames : es.values.map Entity.name = es.keys := by
      rw [Named.values, List.map_map]
      exact List.map_congr_left fun entry => h.named
    exact hnames ▸ h.nodup
  · intro e he
    obtain ⟨⟨name, e⟩, hentry, rfl⟩ := List.mem_map.mp he
    obtain ⟨path, hpath⟩ := h.written _ hentry
    obtain ⟨-, notes, -, hfields⟩ := h.loaded _ _ _ hpath
    have hnames : e.fields.values.map EntityField.name = e.fields.keys := by
      rw [Named.values, List.map_map]
      exact List.map_congr_left fun field hfield => (hfields.loaded field hfield).named
    exact hnames ▸ hfields.nodup

theorem typed (h : LoadedEntities limit g d es) {name field : String} {e : Entity} {f : EntityField}
    {τ : TypeExpr} (he : (name, e) ∈ es) (hf : (field, f) ∈ e.fields) (hτ : f.type = some τ) :
    Relationships.Typed es.values name field τ := by
  obtain ⟨path, hpath⟩ := h.written _ he
  obtain ⟨-, notes, -, hfields⟩ := h.loaded _ _ _ hpath
  exact ⟨e, List.mem_map_of_mem he, f, List.mem_map_of_mem hf, h.named he,
    (hfields.loaded _ hf).named, hτ⟩

/-- Where one node of a field's type holds the relation and the target, the target is looked up. -/
theorem deferred (h : LoadedEntities limit g d es) {name field path target : String} {e : Entity}
    {f : EntityField} {τ : TypeExpr} (hpath : g.Writes limit name e path) (hf : (field, f) ∈ e.fields)
    (hτ : f.type = some τ) (htarget : τ.statedTarget? = some target) (hrelates : τ.Relates target) :
    (⟨Path.child path field, target, [.entity], .relation⟩ : DeferredReference) ∈ d.references := by
  obtain ⟨-, notes, hnotes, hfields⟩ := h.loaded _ _ _ hpath
  have hdeferred := ((hfields.loaded _ hf).deferred τ hτ).references_subset htarget
  exact hnotes (hdeferred (hrelates.mem_references _))

end LoadedEntities

namespace Document

variable {s : Settings} {g : RawGraph} {positions : Positions} {r : ValidationResult}

/-- An error at the path says that there is no entity of the name. -/
def Reports (r : ValidationResult) (path name : String) : Prop :=
  ∃ d ∈ r.diagnostics, ∃ hint, d.unplaced =
    .referenceError path ("reference to undefined entity '" ++ name ++ "'") hint

theorem diagnostic?_undeclared {t : Symbols} {name : String} (h : name ∉ t.names .entity)
    (path : String) : ∃ hint, (Resolve.one t ⟨path, name, [.entity], .relation⟩).diagnostic? path =
      some (.referenceError path ("reference to undefined entity '" ++ name ++ "'") hint) := by
  have hnone : t.declaring? name [.entity] = none :=
    Resolve.declaring?_eq_none.mpr (by simpa using h)
  rw [Resolve.one_byName (by simp), Resolve.byName, hnone]
  exact ⟨_, rfl⟩

theorem Checked.entities {entries : Entries} {d : LoadedDocument} (h : Checked s entries d r) :
    r.document.entities = (DocumentModel.ofLayers d).entities :=
  congrArg Domain.Loaded.entities (LayerData.domain.inj (h.part .domain))

theorem reports_of_checked {entries : Entries} {d : LoadedDocument} (h : Checked s entries d r)
    {path name : String}
    (hreference : (⟨path, name, [.entity], .relation⟩ : DeferredReference) ∈ d.references)
    (hundeclared : name ∉ d.symbols.freeze.names .entity) :
    Reports { r with diagnostics := Diagnostic.sorted (r.diagnostics.map (.locate positions)) }
      path name := by
  obtain ⟨resolved, hresolved, -, hdiagnostics, -⟩ := h.resolved
  obtain ⟨hint, hd⟩ := diagnostic?_undeclared hundeclared path
  have hmem := hdiagnostics _ (resolveAll_diagnostic hresolved hreference hd)
  refine ⟨_, (Diagnostic.sorted_perm _).mem_iff.mpr (List.mem_map_of_mem hmem), hint, ?_⟩
  exact Diagnostic.unplaced_locate positions _

/-- The entities of a document and their fields have names of their own. -/
theorem distinct_entities (h : validateGraph s g positions = .ok r) :
    Relationships.Distinct r.document.entities.values := by
  rcases ordinary_or_rejected h with ⟨hentries, hfinite⟩ | ⟨message, rfl⟩
  · obtain ⟨entries, d, q, hvalue, hchecked, rfl⟩ := exists_checked h hentries hfinite
    rw [hchecked.entities]
    exact (LoadedDocument.loadedEntities hchecked.loaded hvalue).distinct
  · exact ⟨.nil, nofun⟩

/-- A field that states a relation and its target gives the relationship if the target is an entity,
and none otherwise. Then the target is reported at the field's path, wherever the document writes
the field, if one node of its type holds both. -/
theorem validateGraph_relationTarget (h : validateGraph s g positions = .ok r) :
    ∀ name e, (name, e) ∈ r.document.entities → (∃ path, g.Writes s.typeLimit name e path) ∧
      ∀ field f τ kind target, (field, f) ∈ e.fields → f.type = some τ →
        τ.statedKind? = some kind → τ.statedTarget? = some target →
          (target ∈ r.document.entities.keys ∧ ∃ relationship ∈ r.document.relationships,
            relationship.source = name ∧ relationship.field = field ∧
            relationship.target = target ∧ relationship.kind = kind) ∨
          (target ∉ r.document.entities.keys ∧
            (∀ relationship ∈ r.document.relationships,
              relationship.source = name → relationship.field ≠ field) ∧
            (τ.Relates target → ∀ path, g.Writes s.typeLimit name e path →
              Reports r (Path.child path field) target)) := by
  intro name e he
  rcases ordinary_or_rejected h with ⟨hentries, hfinite⟩ | ⟨message, rfl⟩
  · have hdistinct := distinct_entities h
    obtain ⟨entries, d, q, hvalue, hchecked, rfl⟩ := exists_checked h hentries hfinite
    have hloaded := LoadedDocument.loadedEntities hchecked.loaded hvalue
    rw [← hchecked.entities] at hloaded
    refine ⟨hloaded.written _ he, ?_⟩
    intro field f τ kind target hf hτ hkind htarget
    have htyped := hloaded.typed he hf hτ
    dsimp only
    rw [hchecked.relationships]
    -- References and relationships are looked up in the same table, the frozen one.
    by_cases hdeclared : target ∈ q.document.entities.keys
    · exact .inl ⟨hdeclared, Relationships.exists_stated htyped hkind htarget
        ((hloaded.declared target).mp hdeclared)⟩
    · have hundeclared := fun hnames => hdeclared ((hloaded.declared target).mpr hnames)
      refine .inr ⟨hdeclared, fun relationship hmem hsource =>
        Relationships.not_stated hdistinct htyped hkind htarget hundeclared hmem hsource, ?_⟩
      intro hrelates path hpath
      exact reports_of_checked hchecked (hloaded.deferred hpath hf hτ htarget hrelates) hundeclared
  · cases he

/-- One entity with one field, of the type that the text writes. -/
def orders (type : String) : RawGraph :=
  ⟨#[], .value (.dict [(.str "domain", .dict [(.str "Order", .dict [(.str "items", .str type)])])])⟩

def heldTogether : RawGraph := orders "array[string{relation: one-to-many, target: Ghost}]"

theorem validateGraph_relationTarget_heldTogether : ∃ r, validateGraph {} heldTogether = .ok r ∧
    "Ghost" ∉ r.document.entities.keys ∧ Reports r "domain.Order.items" "Ghost" := by
  have hvalid : ∃ r ∈ (validateGraph {} heldTogether).toOption, "Ghost" ∉ r.document.entities.keys ∧
      ∃ entry ∈ r.document.entities, entry.1 = "Order" ∧
        ∃ field ∈ entry.2.fields, field.1 = "items" ∧ ∃ τ ∈ field.2.type,
          τ.statedKind? = some .oneToMany ∧ τ.statedTarget? = some "Ghost" ∧
          ∃ node ∈ τ.nodes, node.relationTarget? = some "Ghost" := by decide +kernel
  obtain ⟨r, hr, hkeys, ⟨name, e⟩, hentity, rfl, ⟨field, f⟩, hf, rfl, τ, hτ, hkind, htarget,
    hrelates⟩ := hvalid
  replace hr := eq_ok_of_mem_toOption hr
  obtain ⟨⟨path, hpath⟩, hfield⟩ := validateGraph_relationTarget hr _ _ hentity
  have hplace : path = "domain.Order" := by
    obtain ⟨body, place, notes, hitem, -, rfl⟩ := hpath
    cases List.mem_singleton.mp hitem
    rfl
  subst hplace
  obtain ⟨hdeclared, -⟩ | ⟨-, -, hreports⟩ := hfield _ _ _ _ _ hf hτ hkind htarget
  · exact absurd hdeclared hkeys
  · exact ⟨r, hr, hkeys, hreports hrelates _ hpath⟩

def heldApart : RawGraph := orders "array[string{relation: one-to-many}]{target: Ghost}"

/-- Where a wrapper holds the target and the type inside it the relation, nothing is reported. -/
theorem relationTarget_unreported : ∃ r, validateGraph {} heldApart = .ok r ∧
    r.diagnostics = [] ∧ r.document.relationships = [] ∧ "Ghost" ∉ r.document.entities.keys ∧
    ∃ entry ∈ r.document.entities, ∃ field ∈ entry.2.fields, ∃ τ ∈ field.2.type,
      τ.statedKind? = some .oneToMany ∧ τ.statedTarget? = some "Ghost" := by
  have hvalid : ∃ r ∈ (validateGraph {} heldApart).toOption,
      r.diagnostics = [] ∧ r.document.relationships = [] ∧ "Ghost" ∉ r.document.entities.keys ∧
      ∃ entry ∈ r.document.entities, ∃ field ∈ entry.2.fields, ∃ τ ∈ field.2.type,
        τ.statedKind? = some .oneToMany ∧ τ.statedTarget? = some "Ghost" := by decide +kernel
  obtain ⟨r, hr, hrest⟩ := hvalid
  exact ⟨r, eq_ok_of_mem_toOption hr, hrest⟩

end Document

end AppSpec
