import AppSpec.Proofs.Document.Mild
import AppSpec.Proofs.Document.RelationTarget
import AppSpec.Proofs.Layer.FieldAccess

/-!
Rules for access to fields, against the entities of their document. A rule's field is looked up by
one name, in which the entity ends at the first dot. So a rule is reported just where the entity
that it names is not declared or has no such field, unless the entity's own name has a dot in it:
then another entity is looked up than the rule names.
-/

namespace AppSpec

/-- The entity and the field that are looked up for a rule: what its name has before the first dot
and behind it. -/
structure FieldAccess.LooksUp (a : FieldAccess) (entity field : String) : Prop where
  undotted : '.' ∉ entity.toList
  name_eq : a.entity ++ "." ++ a.field = entity ++ "." ++ field

theorem FieldAccess.looksUp_own {a : FieldAccess} (h : '.' ∉ a.entity.toList) :
    a.LooksUp a.entity a.field := ⟨h, rfl⟩

theorem FieldAccess.exists_looksUp (a : FieldAccess) : ∃ entity field, a.LooksUp entity field := by
  have hdot : '.' ∈ (a.entity ++ "." ++ a.field).toList := by simp
  obtain ⟨before, behind, hname, hundotted⟩ := List.eq_append_cons_of_mem hdot
  refine ⟨String.ofList before, String.ofList behind, by rwa [String.toList_ofList], ?_⟩
  apply String.toList_inj.mp
  rw [hname]
  simp

/-- An entity under the name has the field. -/
def DocumentModel.DeclaresField (m : DocumentModel) (entity field : String) : Prop :=
  ∃ e, m.entities.get? entity = some e ∧ field ∈ e.fields.keys

/-! ### Lookup -/

/-- The fields of a rule stand in order already. -/
theorem Shape.sorted_fieldAccess :
    fieldAccess.mergeSort (fun a b => decide (a.1 ≤ b.1)) = fieldAccess :=
  List.mergeSort_of_pairwise (by decide)

namespace Resolve

variable {t : Symbols} {references : List DeferredReference} {resolved : ResolvedReferences}
  {r : DeferredReference}

theorem splitField_eq {entity : String} (h : '.' ∉ entity.toList) (field : String) :
    splitField (entity ++ "." ++ field) = (entity, field) := by
  have hundotted : ∀ c ∈ entity.toList, (c != '.') = true := by
    intro c hc
    rw [bne_iff_ne]
    rintro rfl
    exact h hc
  have hcs : (entity ++ "." ++ field).toList = entity.toList ++ '.' :: field.toList := by
    rw [String.toList_append, String.toList_append, List.append_assoc]
    rfl
  rw [splitField, hcs, List.takeWhile_append_of_pos hundotted,
    List.dropWhile_append_of_pos hundotted]
  simp

/-- A field's reference dangles unless the entity has the field. -/
theorem isDangling_field {entity field : String} (hkind : r.kind = .field)
    (hname : r.name = entity ++ "." ++ field) (hentity : '.' ∉ entity.toList) :
    (record t r).isDangling = true ↔ ¬ ∃ e, t.entity? entity = some e ∧ field ∈ e.fields.keys := by
  have hone : one t r = fieldOf t r := by
    rw [one, hkind]
  rw [ReferenceRecord.isDangling, record, hone, fieldOf, hname, splitField_eq hentity]
  dsimp only
  cases t.entity? entity with
  | none => simp [Resolution.outcome, Outcome.isDangling]
  | some e =>
      dsimp only
      split
      · next hhas =>
          simpa [Resolution.outcome, Outcome.isDangling] using (Named.has_iff_mem_keys _ _).mp hhas
      · next hhas =>
          rw [Named.has_iff_mem_keys] at hhas
          simpa [Resolution.outcome, Outcome.isDangling] using hhas

theorem resolveAll_eq_ok (h : resolveAll t references = .ok resolved) :
    resolved.records = ((references.map (record t)).mergeSort fun a b => (order a b).isLE) ∧
      resolved.diagnostics = references.filterMap (diagnostic? t) ++
        (t.names .error).filterMap (errorClash t) := by
  rw [resolveAll] at h
  split at h
  · cases h
  · cases h
    exact ⟨rfl, rfl⟩

/-- Where one reference stands alone at its path, the only record there is its own. -/
theorem exists_dangling_iff (h : resolveAll t references = .ok resolved) (hr : r ∈ references)
    (halone : ∀ x ∈ references, x.path = r.path → x = r) :
    (∃ q ∈ resolved.records, q.path = r.path ∧ q.isDangling = true) ↔
      (record t r).isDangling = true := by
  simp only [(resolveAll_eq_ok h).1, List.mem_mergeSort]
  constructor
  · rintro ⟨q, hq, hpath, hdangling⟩
    obtain ⟨x, hx, rfl⟩ := List.mem_map.mp hq
    exact halone x hx hpath ▸ hdangling
  · intro hdangling
    exact ⟨record t r, List.mem_map_of_mem hr, rfl, hdangling⟩

/-- Where one reference stands alone at its path, no other gives an error there. -/
theorem exists_error_iff (h : resolveAll t references = .ok resolved) (hr : r ∈ references)
    (halone : ∀ x ∈ references, x.path = r.path → x = r) :
    (∃ d ∈ resolved.diagnostics, d.category = .reference ∧ d.severity = .error ∧ d.path = r.path) ↔
      (record t r).isDangling = true := by
  have hdangling : (record t r).isDangling = true ↔ ∃ d, diagnostic? t r = some d := by
    rw [← Option.ne_none_iff_exists', Ne, diagnostic?_isNone, Bool.not_eq_false]
  rw [hdangling, (resolveAll_eq_ok h).2]
  constructor
  · rintro ⟨d, hd, hcategory, -, hpath⟩
    rcases List.mem_append.mp hd with hd | hd
    · obtain ⟨x, hx, hd⟩ := List.mem_filterMap.mp hd
      have hplace := congrArg (fun p : Severity × Location => p.2.path) (diagnostic?_place hd).2
      obtain rfl := halone x hx (hplace.symm.trans hpath)
      exact ⟨d, hd⟩
    · obtain ⟨name, -, hd⟩ := List.mem_filterMap.mp hd
      cases (category_errorClash hd).symm.trans hcategory
  · rintro ⟨d, hd⟩
    obtain ⟨hcategory, hplace⟩ := diagnostic?_place hd
    obtain ⟨hseverity, hlocation⟩ := Prod.mk.inj hplace
    exact ⟨d, List.mem_append_left _ (List.mem_filterMap.mpr ⟨r, hr, hd⟩), hcategory, hseverity,
      congrArg Location.path hlocation⟩

end Resolve

/-! ### Loading -/

namespace LoadedDocument

open Security

variable {limit : Int} {entries : Entries} {layers : List Layer} {d d' : LoadedDocument}

theorem loaded_of_mem_results (h : loadLayers limit entries layers d = .ok d') {r : LayerResult}
    (hr : r ∈ d'.results) : r ∈ d.results ∨ ∃ layer t u,
      Layer.load limit layer (entries.field layer.label) t = .ok (r, u) := by
  induction layers generalizing d with
  | nil =>
      cases h
      exact .inl hr
  | cons layer layers ih =>
      obtain ⟨⟨q, u⟩, hload, h⟩ := bind_eq_ok.mp h
      rcases ih h with hr | hr
      · rcases List.mem_append.mp hr with hr | hr
        · exact .inl hr
        · cases List.mem_singleton.mp hr
          exact .inr ⟨layer, _, u, hload⟩
      · exact .inr hr

/-- A layer that declares nothing can be loaded on its own. -/
theorem ofEntries_of_load (layer : Layer) {r : LayerResult}
    (h : ∀ t, Layer.load limit layer (entries.field layer.label) t = .ok (r, t)) :
    ofEntries limit entries = (do
      let d ← loadLayers limit entries layer.before ⟨[], .empty⟩
      loadLayers limit entries layer.after ⟨d.results ++ [r], d.symbols⟩) := by
  rw [ofEntries, layer.all_eq, loadLayers_append]
  refine bind_congr fun d => ?_
  rw [loadLayers, h]
  rfl

/-- No other layer leaves anything where a rule names its field. -/
theorem elsewhere_load {layer : Layer} {v : Value} {t u : Symbols} {r : LayerResult}
    (hlayer : layer ≠ .security) (h : Layer.load limit layer v t = .ok (r, u)) :
    (∀ e ∈ r.notes.diagnostics, Elsewhere e.path) ∧ ∀ x ∈ r.notes.references, Elsewhere x.path := by
  have hbase : ¬ (layer.label.toList <+: accessPath.toList ∨
      accessPath.toList <+: layer.label.toList) := by
    revert hlayer
    cases layer <;> decide
  have hbelow := Layer.below_load h
  exact ⟨fun e he => elsewhere_of_below (hbelow.diagnostics e he) hbase,
    fun x hx => elsewhere_of_below (hbelow.references x hx) hbase⟩

theorem loadedRules_ofEntries (hd : ofEntries limit entries = .ok d) :
    LoadedRules ((entries.field "security").entry "field_access")
      (DocumentModel.ofLayers d).security.fieldAccess d.diagnostics d.references := by
  obtain ⟨t, r, u, hl⟩ := exists_loaded hd .security
  have hrules := Layer.loadedRules_security hl.load
  have hmodel : (DocumentModel.ofLayers d).security.fieldAccess = r.data.rules := by
    rw [LayerData.security.inj hl.part]
    cases r.data <;> rfl
  have hresults {q : LayerResult} (hq : q ∈ d.results) : ∃ layer t u,
      Layer.load limit layer (entries.field layer.label) t = .ok (q, u) :=
    (loaded_of_mem_results hd hq).resolve_left (List.not_mem_nil)
  refine ⟨hmodel ▸ hrules.accepted, fun i a ha => hl.references _ (hrules.noted i a ha), ?_, ?_⟩
  · intro i x hx hpath
    obtain ⟨q, hq, hx⟩ := List.mem_flatMap.mp hx
    obtain ⟨layer, t, u, hload⟩ := hresults hq
    by_cases hlayer : layer = .security
    · subst hlayer
      exact (Layer.loadedRules_security hload).only i x hx hpath
    · exact absurd hpath ((elsewhere_load hlayer hload).2 x hx i)
  · intro e he hcategory i
    obtain ⟨q, hq, he⟩ := List.mem_flatMap.mp he
    obtain ⟨layer, t, u, hload⟩ := hresults hq
    by_cases hlayer : layer = .security
    · subst hlayer
      exact (Layer.loadedRules_security hload).silent e he hcategory i
    · exact (elsewhere_load hlayer hload).1 e he i

theorem lookup?_entity (hd : ofEntries limit entries = .ok d) (name : String) :
    d.symbols.lookup? .entity name =
      ((DocumentModel.ofLayers d).entities.get? name).map .entity := by
  cases hs : Domain.sections? (entries.field "domain") with
  | none =>
      rw [entities_of_no_sections hd hs]
      rw [Named.get?, Option.map_none, Option.eq_none_iff_forall_ne_some]
      intro definition hlookup
      have hhas := SymbolTable.has_of_lookup? hlookup
      have hname := declared_entities hd (SymbolTable.mem_names.mpr hhas)
      rw [entities_of_no_sections hd hs] at hname
      cases hname
  | some s =>
      obtain ⟨t, types, entities, hdomain⟩ := exists_loadedDomain hd hs
      have hentities : (DocumentModel.ofLayers d).entities = entities.items :=
        congrArg Domain.Loaded.entities (LayerData.domain.inj hdomain.part)
      rw [hentities, hdomain.mirrors_entities.items, SymbolTable.lookup?, hdomain.find_entities]
      rfl

/-- Resolving looks an entity up where the model keeps it. -/
theorem entity?_ofEntries (hd : ofEntries limit entries = .ok d) (name : String) :
    Symbols.entity? d.symbols.freeze name = (DocumentModel.ofLayers d).entities.get? name := by
  have hlookup : d.symbols.freeze.lookup? .entity name =
      ((DocumentModel.ofLayers d).entities.get? name).map .entity := lookup?_entity hd name
  rw [Symbols.entity?, hlookup]
  cases (DocumentModel.ofLayers d).entities.get? name <;> rfl

end LoadedDocument

/-! ### Validation -/

/-- The error is one of a reference, at the path. -/
def Diagnostic.IsReferenceError (path : String) (d : Diagnostic) : Prop :=
  d.category = .reference ∧ d.severity = .error ∧ d.path = path

theorem Diagnostic.isReferenceError_locate (positions : Positions) (path : String)
    (d : Diagnostic) : (d.locate positions).IsReferenceError path ↔ d.IsReferenceError path := by
  have hunplaced := unplaced_locate positions d
  have hcategory : (d.locate positions).category = d.category := category_locate positions d
  have hseverity : (d.locate positions).severity = d.severity := severity_locate positions d
  have hpath : (d.locate positions).path = d.path :=
    congrArg (fun e => e.location.path) hunplaced
  rw [IsReferenceError, hcategory, hseverity, hpath, IsReferenceError]

namespace Document

open Security Resolve

variable {s : Settings} {g : RawGraph} {positions : Positions} {r : ValidationResult}

/-- An error of a reference stands at the path. -/
def ReportsAt (r : ValidationResult) (path : String) : Prop :=
  ∃ d ∈ r.diagnostics, d.IsReferenceError path

/-- A reference at the path leads nowhere. -/
def DanglesAt (r : ValidationResult) (path : String) : Prop :=
  ∃ q ∈ r.document.references, q.path = path ∧ q.isDangling = true

theorem reportsAt_located {path : String} :
    ReportsAt { r with diagnostics := Diagnostic.sorted (r.diagnostics.map (.locate positions)) }
      path ↔ ReportsAt r path := by
  constructor
  · rintro ⟨e, he, herror⟩
    obtain ⟨d, hd, rfl⟩ := List.mem_map.mp ((Diagnostic.sorted_perm _).mem_iff.mp he)
    exact ⟨d, hd, (Diagnostic.isReferenceError_locate positions path d).mp herror⟩
  · rintro ⟨d, hd, herror⟩
    exact ⟨_, (Diagnostic.sorted_perm _).mem_iff.mpr (List.mem_map_of_mem hd),
      (Diagnostic.isReferenceError_locate positions path d).mpr herror⟩

/-- Nothing else stands where an accepted rule names its field, so what is said there is said of
the one reference to it. -/
theorem Checked.reported_iff {entries : Entries} {d : LoadedDocument} (h : Checked s entries d r)
    {i : Nat} {a : FieldAccess}
    (ha : Accepts ((entries.field "security").entry "field_access") i a) {entity field : String}
    (hlooks : a.LooksUp entity field) :
    (ReportsAt r (fieldPath i) ↔ ¬ r.document.DeclaresField entity field) ∧
      (DanglesAt r (fieldPath i) ↔ ¬ r.document.DeclaresField entity field) := by
  have hrules := LoadedDocument.loadedRules_ofEntries h.loaded
  obtain ⟨resolved, hresolved, hrecords, hincluded, honly⟩ := h.resolved
  have hmem : fieldReference i a ∈ d.references := hrules.noted i a ha
  have halone :
      ∀ x ∈ d.references, x.path = (fieldReference i a).path → x = fieldReference i a := by
    intro x hx hpath
    obtain ⟨b, hb, rfl⟩ := hrules.only i x hx hpath
    rw [ha.unique hb]
  have hdangling : (record d.symbols.freeze (fieldReference i a)).isDangling = true ↔
      ¬ r.document.DeclaresField entity field := by
    rw [isDangling_field rfl hlooks.name_eq hlooks.undotted, DocumentModel.DeclaresField,
      h.entities, LoadedDocument.entity?_ofEntries h.loaded]
  rw [← hdangling]
  constructor
  · rw [← exists_error_iff hresolved hmem halone]
    constructor
    · rintro ⟨e, he, herror⟩
      refine ⟨e, (honly e he herror.1).resolve_left fun hloaded => ?_, herror⟩
      exact hrules.silent e hloaded herror.1 i herror.2.2
    · rintro ⟨e, he, herror⟩
      exact ⟨e, hincluded e he, herror⟩
  · rw [← exists_dangling_iff hresolved hmem halone, DanglesAt, hrecords]
    rfl

/-- Each rule that is accepted is reported, at its field's path, just where the entity and the field
that are looked up for it are not declared. -/
theorem validateGraph_fieldAccess (h : validateGraph s g positions = .ok r) :
    ∃ accepted : List (Nat × FieldAccess),
      accepted.map (·.2) = r.document.security.fieldAccess ∧
      (accepted.map (·.1)).Pairwise (· < ·) ∧
      ∀ p ∈ accepted, Accepts ((g.value.entry "security").entry "field_access") p.1 p.2 ∧
        (∃ entity field, p.2.LooksUp entity field) ∧ ∀ entity field, p.2.LooksUp entity field →
          (ReportsAt r (fieldPath p.1) ↔ ¬ r.document.DeclaresField entity field) ∧
          (DanglesAt r (fieldPath p.1) ↔ ¬ r.document.DeclaresField entity field) := by
  rcases ordinary_or_rejected h with ⟨hentries, hfinite⟩ | ⟨message, rfl⟩
  · obtain ⟨entries, d, q, hvalue, hchecked, rfl⟩ := exists_checked h hentries hfinite
    have hrules := LoadedDocument.loadedRules_ofEntries hchecked.loaded
    obtain ⟨accepted, hmodel, hindexes, haccepted⟩ := hrules.accepted
    have hsecurity : q.document.security = (DocumentModel.ofLayers d).security :=
      LayerData.security.inj (hchecked.part .security)
    refine ⟨accepted, hmodel.trans (congrArg SecurityPolicy.fieldAccess hsecurity.symm), hindexes,
      fun p hp => ?_⟩
    rw [hvalue]
    refine ⟨haccepted p hp, p.2.exists_looksUp, fun entity field hlooks => ?_⟩
    rw [reportsAt_located]
    exact hchecked.reported_iff (haccepted p hp) hlooks
  · exact ⟨[], rfl, .nil, List.forall_mem_nil _⟩

/-! ### One rule -/

/-- A rule about the field of the entity. -/
def rule (entity field : String) : Entries :=
  [(.str "entity", .str entity), (.str "field", .str field)]

/-- One entity with one field, and one rule. -/
def guarded (entity field : String) (rule : Entries) : Entries :=
  [(.str "domain", .dict [(.str entity, .dict [(.str field, .str "string")])]),
    (.str "security", .dict [(.str "field_access", .list [.dict rule])])]

def graphOf (entries : Entries) : RawGraph := ⟨#[], .value (.dict entries)⟩

theorem loadFieldAccess_rule {entity field : String}
    (h : Shape.fieldAccess.check (rule entity field) (Path.item accessPath 0) = .ok []) :
    loadFieldAccess accessPath (0, .dict (rule entity field)) = .ok (some ⟨entity, field, [], []⟩,
      { references := [fieldReference 0 ⟨entity, field, [], []⟩] }) :=
  Load.load_bind_eq_ok.mpr ⟨[], {}, { references := [fieldReference 0 ⟨entity, field, [], []⟩] },
    congrArg Load.lift h, rfl, rfl⟩

/-- What loading leaves of a rule that is the only one. -/
def ruleResult (a : FieldAccess) : LayerResult :=
  ⟨.security, .security { fieldAccess := [a] }, { references := [fieldReference 0 a] }⟩

theorem load_rule {limit : Int} {rule : Entries} {a : FieldAccess}
    (h : loadFieldAccess accessPath (0, .dict rule) =
      .ok (some a, { references := [fieldReference 0 a] })) (t : Symbols) :
    Layer.load limit .security (.dict [(.str "field_access", .list [.dict rule])]) t =
      .ok (ruleResult a, t) := by
  have hlisted : Load.eachSome (loadFieldAccess accessPath) (Load.indexed [.dict rule]) =
      .ok ([a], { references := [fieldReference 0 a] }) :=
    Load.load_bind_eq_ok.mpr ⟨[some a], _, {},
      Load.load_bind_eq_ok.mpr ⟨some a, _, {}, h, rfl, rfl⟩, rfl, rfl⟩
  have hpolicy : loadPolicy [(.str "field_access", .list [.dict rule])] [] =
      .ok ({ fieldAccess := [a] }, { references := [fieldReference 0 a] }) :=
    Load.load_bind_eq_ok.mpr ⟨[], {}, _, rfl,
      Load.load_bind_eq_ok.mpr ⟨[a], _, {}, hlisted, rfl, rfl⟩, rfl⟩
  refine bind_eq_ok.mpr
    ⟨(some { fieldAccess := [a] }, { references := [fieldReference 0 a] }, t), ?_, rfl⟩
  refine bind_eq_ok.mpr ⟨(some [(.str "field_access", .list [.dict rule])], {}), rfl, ?_⟩
  refine bind_eq_ok.mpr ⟨([], {}), rfl, ?_⟩
  refine bind_eq_ok.mpr ⟨(Declared.start t).note {}, rfl, ?_⟩
  exact bind_eq_ok.mpr ⟨_, hpolicy, rfl⟩

theorem validateGraph_graphOf {entries : Entries} (hentries : entries ≠ [])
    (hshort : (Value.dict entries).hasLongKey = false) (h : check s entries = .ok r)
    (positions : Positions) :
    validateGraph s (graphOf entries) positions =
      .ok { r with diagnostics := Diagnostic.sorted (r.diagnostics.map (.locate positions)) } := by
  obtain ⟨e, rest, rfl⟩ := List.exists_cons_of_ne_nil hentries
  have hrecursion : (graphOf (e :: rest)).recursion? = .ok none := by
    rw [RawGraph.recursion?, graphOf]
    dsimp only
    rw [hshort]
    rfl
  rw [validateGraph, show (graphOf (e :: rest)).rootKind = .mapping from rfl, hrecursion]
  exact (validate_dict_eq_ok hentries).mpr ⟨hshort, r, h, rfl⟩

def unknownField : RawGraph := graphOf (guarded "Order" "total" (rule "Order" "tax"))

theorem validateGraph_fieldAccess_unknownField : ∃ r, validateGraph {} unknownField = .ok r ∧
    r.document.security.fieldAccess = [⟨"Order", "tax", [], []⟩] ∧
    ReportsAt r "security.field_access[0].field" := by
  have hchecked : ∃ r ∈ (check {} (guarded "Order" "total" (rule "Order" "tax"))).toOption,
      r.document.security.fieldAccess = [⟨"Order", "tax", [], []⟩] ∧
      ∀ e ∈ r.document.entities.get? "Order", "tax" ∉ e.fields.keys := by
    rw [check, LoadedDocument.ofEntries_of_load .security
      (load_rule (loadFieldAccess_rule (by rw [Shape.check, Shape.sorted_fieldAccess]; rfl)))]
    decide +kernel
  obtain ⟨q, hq, hrules, hundeclared⟩ := hchecked
  have hr := validateGraph_graphOf (by decide) rfl (eq_ok_of_mem_toOption hq) []
  refine ⟨_, hr, hrules, ?_⟩
  obtain ⟨accepted, haccepted, -, hreported⟩ := validateGraph_fieldAccess hr
  have hmem : (⟨"Order", "tax", [], []⟩ : FieldAccess) ∈ accepted.map (·.2) := by
    rw [haccepted, hrules]
    exact List.mem_singleton_self _
  obtain ⟨⟨i, a⟩, hp, rfl⟩ := List.mem_map.mp hmem
  obtain ⟨⟨items, item, notes, hitems, hitem, -⟩, -, hiff⟩ := hreported _ hp
  cases hitems
  obtain rfl : i = 0 := Nat.lt_one_iff.mp (List.getElem?_eq_some_iff.mp hitem).1
  have hpath : fieldPath 0 = "security.field_access[0].field" := by decide +kernel
  refine hpath ▸ (hiff _ _ (FieldAccess.looksUp_own (by decide))).1.mpr ?_
  rintro ⟨e, he, hkeys⟩
  exact hundeclared e he hkeys

def dottedEntity : RawGraph :=
  graphOf (guarded "billing.Order" "total" (rule "billing.Order" "total"))

/-- A rule about a declared field of an entity with a dot in its name is reported. -/
theorem fieldAccess_dotted : ∃ r, validateGraph {} dottedEntity = .ok r ∧
    r.document.security.fieldAccess = [⟨"billing.Order", "total", [], []⟩] ∧
    r.document.DeclaresField "billing.Order" "total" ∧
    ReportsAt r "security.field_access[0].field" ∧
    DanglesAt r "security.field_access[0].field" := by
  have hchecked : ∃ r ∈ (check {} (guarded "billing.Order" "total"
        (rule "billing.Order" "total"))).toOption,
      r.document.security.fieldAccess = [⟨"billing.Order", "total", [], []⟩] ∧
      (∃ e ∈ r.document.entities.get? "billing.Order", "total" ∈ e.fields.keys) ∧
      (∃ d ∈ r.diagnostics, d.category = .reference ∧ d.severity = .error ∧
        d.path = "security.field_access[0].field") ∧
      ∃ q ∈ r.document.references, q.path = "security.field_access[0].field" ∧
        q.isDangling = true := by
    rw [check, LoadedDocument.ofEntries_of_load .security
      (load_rule (loadFieldAccess_rule (by rw [Shape.check, Shape.sorted_fieldAccess]; rfl)))]
    decide +kernel
  obtain ⟨q, hq, hrules, hdeclared, herror, hdangling⟩ := hchecked
  exact ⟨_, validateGraph_graphOf (by decide) rfl (eq_ok_of_mem_toOption hq) [], hrules, hdeclared,
    reportsAt_located.mpr herror, hdangling⟩

end Document

end AppSpec
