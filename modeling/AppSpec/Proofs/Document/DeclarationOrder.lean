import AppSpec.Proofs.Document.Accepted
import AppSpec.Proofs.Document.Reordered
import AppSpec.Proofs.Layer.Taken
import AppSpec.Proofs.Reference.Order

/-!
Validation does not depend on the order of declarations: what is checked across layers comes up
class by class alike, and sorting the diagnostics leaves no trace of the order.
-/

namespace AppSpec

open Value (Permuted Reordered under)

variable {s : Settings} {E : String → Prop} {F : Prop} {entries entries' : Entries}
  {v v' : Value} {r : ValidationResult} {positions : Positions}

namespace Document

variable {m m' : DocumentModel} {d d' : LoadedDocument} {paths paths' : Named String}

/-! ### Checks across layers -/

theorem sectionWarning_eq_of_order {key key' : Scalar} {x y : Diagnostic}
    (hx : sectionWarning key = some x) (hy : sectionWarning key' = some y)
    (h : Diagnostic.order x y = .eq) : x = y := by
  rw [sectionWarning] at hx hy
  split at hx
  · cases hx
  · split at hy
    · cases hy
    · cases hx
      cases hy
      have hname : key.text = key'.text := (Diagnostic.eq_of_order h).1
      rw [hname]

theorem sectionWarnings_perm (h : (entries.map (·.1)).Perm (entries'.map (·.1))) :
    SameClasses Diagnostic.order (entries.filterMap fun e => sectionWarning e.1)
      (entries'.filterMap fun e => sectionWarning e.1) := by
  have hkeys (entries : Entries) : (entries.filterMap fun e => sectionWarning e.1) =
      (entries.map (·.1)).filterMap sectionWarning := by
    rw [List.filterMap_map]
    rfl
  rw [hkeys, hkeys]
  refine .of_perm (h.filterMap _) fun x hx y hy => ?_
  obtain ⟨key, -, hx⟩ := List.mem_filterMap.mp hx
  obtain ⟨key', -, hy⟩ := List.mem_filterMap.mp hy
  exact sectionWarning_eq_of_order hx hy

theorem pathIn_congr (hpaths : ∀ name, paths.get? name = paths'.get? name) (base : String) :
    pathIn paths base = pathIn paths' base := by
  funext name
  rw [pathIn, pathIn, hpaths]

theorem unmappedOperations_alike (h : m.Alike F m')
    (hpaths : ∀ name, paths.get? name = paths'.get? name) (severity : Severity) :
    SameClasses Diagnostic.order (unmappedOperations severity m paths)
      (unmappedOperations severity m' paths') := by
  have hcovered : (fun name => !(m.components.values.flatMap (·.responsibilities)).contains name) =
      fun name => !(m'.components.values.flatMap (·.responsibilities)).contains name := by
    funext name
    rw [(h.components.values_perm.flatMap_right _).contains_eq]
  rw [unmappedOperations, unmappedOperations, hcovered, pathIn_congr hpaths]
  refine .of_perm (((h.operations.map _).filter _).map _) fun x hx y hy horder => ?_
  obtain ⟨name, -, rfl⟩ := List.mem_map.mp hx
  obtain ⟨name', -, rfl⟩ := List.mem_map.mp hy
  exact Diagnostic.make_eq_of_order horder

theorem missingMappings_alike (h : m.Alike F m')
    (hpaths : ∀ name, paths.get? name = paths'.get? name) :
    SameClasses Diagnostic.order (missingMappings m paths) (missingMappings m' paths') := by
  rw [missingMappings, missingMappings, ← h.mapping, ← pathIn_congr hpaths]
  refine .of_perm (((h.operations.map _).filter _).map _) fun x hx y hy horder => ?_
  obtain ⟨name, -, rfl⟩ := List.mem_map.mp hx
  obtain ⟨name', -, rfl⟩ := List.mem_map.mp hy
  have hmessage : "operation '" ++ name ++ "' has no mapping entry" =
      "operation '" ++ name' ++ "' has no mapping entry" := (Diagnostic.eq_of_order horder).2.2
  rw [String.append_left_inj, String.append_right_inj] at hmessage
  rw [hmessage]

/-- The page that takes a route first. -/
def firstPage? (pages : List Page) (route : String) : Option String :=
  (pages.find? fun p => p.route == some route).map (·.name)

/-- What is said about a page, where the names of the first pages to take a route are known. -/
def routeComplaint? (paths : Named String) (first : String → Option String) (page : Page) :
    Option Diagnostic :=
  match page.route with
  | none => none
  | some route =>
      match first route with
      | none => none
      | some name =>
          if name = page.name then none
          else
            some (.consistencyError (Path.child (pathIn paths "ui" page.name) "route")
              ("duplicate route '" ++ route ++ "' (already used by page '" ++ name ++ "')"))

theorem duplicateRoutes_eq_filterMap (pages : List Page) (seen : Named String)
    (h : (seen.map (·.2) ++ pages.map (·.name)).Nodup) : duplicateRoutes paths pages seen =
      pages.filterMap
        (routeComplaint? paths fun route => (seen.get? route).or (firstPage? pages route)) := by
  fun_induction duplicateRoutes paths pages seen with
  | case1 => rfl
  | case2 page rest seen hroute ih =>
      have hrest : (seen.map (·.2) ++ rest.map (·.name)).Nodup :=
        h.sublist ((List.Sublist.refl _).append (List.sublist_cons_self _ _))
      have hfirst : firstPage? (page :: rest) = firstPage? rest := by
        funext route
        rw [firstPage?, List.find?_cons, hroute]
        rfl
      rw [ih hrest, List.filterMap_cons, hfirst, routeComplaint?, hroute]
  | case3 page rest seen route hroute first hseen ih =>
      have hrest : (seen.map (·.2) ++ rest.map (·.name)).Nodup :=
        h.sublist ((List.Sublist.refl _).append (List.sublist_cons_self _ _))
      have hne : first ≠ page.name := by
        rintro rfl
        have hmem := List.mem_map_of_mem (f := Prod.snd) (Named.mem_of_get? hseen)
        exact (List.nodup_append.mp h).2.2 _ hmem _ List.mem_cons_self rfl
      have hfirst : (fun other => (seen.get? other).or (firstPage? (page :: rest) other)) =
          fun other => (seen.get? other).or (firstPage? rest other) := by
        funext other
        by_cases heq : route = other
        · rw [← heq, hseen, Option.some_or, Option.some_or]
        · rw [firstPage?, List.find?_cons_of_neg (by simp [hroute, heq])]
          rfl
      rw [ih hrest, List.filterMap_cons, hfirst, routeComplaint?, hroute]
      dsimp only
      rw [hseen, Option.some_or]
      dsimp only
      rw [if_neg hne]
  | case4 page rest seen route hroute hseen ih =>
      have hrest : ((seen ++ [(route, page.name)]).map (·.2) ++ rest.map (·.name)).Nodup := by
        rwa [List.map_append, List.append_assoc]
      have htaken : firstPage? (page :: rest) route = some page.name := by
        rw [firstPage?, List.find?_cons_of_pos (by simp [hroute])]
        rfl
      have hfirst : (fun other => (seen.get? other).or (firstPage? (page :: rest) other)) =
          fun other => ((seen ++ [(route, page.name)]).get? other).or (firstPage? rest other) := by
        funext other
        rw [Named.get?_append, Option.or_assoc]
        refine congrArg (Option.or _) ?_
        by_cases heq : route = other
        · rw [← heq, htaken, Named.get?, if_pos rfl, Option.some_or]
        · rw [firstPage?, List.find?_cons_of_neg (by simp [hroute, heq]), Named.get?, if_neg heq,
            Named.get?, Option.none_or]
          rfl
      rw [ih hrest, ← hfirst, List.filterMap_cons, routeComplaint?, hroute]
      dsimp only
      rw [hseen, Option.none_or, htaken]
      dsimp only
      rw [if_pos rfl]

theorem routeComplaint?_eq_of_order {first : String → Option String} {page page' : Page}
    {x y : Diagnostic} (hx : routeComplaint? paths first page = some x)
    (hy : routeComplaint? paths first page' = some y) (h : Diagnostic.order x y = .eq) : x = y := by
  have hcomplains {page : Page} {x : Diagnostic} (hx : routeComplaint? paths first page = some x) :
      ∃ path message, x = .consistencyError path message := by
    unfold routeComplaint? at hx
    split at hx
    · cases hx
    · split at hx
      · cases hx
      · split at hx
        · cases hx
        · exact ⟨_, _, (Option.some.inj hx).symm⟩
  obtain ⟨path, message, rfl⟩ := hcomplains hx
  obtain ⟨path', message', rfl⟩ := hcomplains hy
  exact Diagnostic.make_eq_of_order h

/-- Where each route is first taken by the same page, the order of the pages leaves no trace. -/
theorem duplicateRoutes_alike {pages pages' : List Page} (h : pages.Perm pages')
    (hnames : (pages.map (·.name)).Nodup) (hpaths : ∀ name, paths.get? name = paths'.get? name)
    (hfirst : ∀ route, firstPage? pages route = firstPage? pages' route) :
    SameClasses Diagnostic.order (duplicateRoutes paths pages [])
      (duplicateRoutes paths' pages' []) := by
  have hcomplaint (page : Page) :
      routeComplaint? paths (fun route => (Named.get? [] route).or (firstPage? pages route)) page =
        routeComplaint? paths' (fun route => (Named.get? [] route).or (firstPage? pages' route)) page := by
    simp only [routeComplaint?, hfirst, pathIn_congr hpaths]
  rw [duplicateRoutes_eq_filterMap pages [] hnames, duplicateRoutes_eq_filterMap pages' []
    ((h.map _).nodup_iff.mp hnames), ← funext hcomplaint]
  refine .of_perm (h.filterMap _) fun x hx y hy horder => ?_
  obtain ⟨page, -, hx⟩ := List.mem_filterMap.mp hx
  obtain ⟨page', -, hy⟩ := List.mem_filterMap.mp hy
  exact routeComplaint?_eq_of_order hx hy horder

theorem crossChecks_alike (h : m.Alike F m')
    (hpaths : ∀ layer name, (d.paths layer).get? name = (d'.paths layer).get? name)
    (hmapping : hasMapping entries = hasMapping entries')
    (hnames : (m.pages.values.map (·.name)).Nodup)
    (hfirst : ∀ route, firstPage? m.pages.values route = firstPage? m'.pages.values route) :
    SameClasses Diagnostic.order (crossChecks s entries d m) (crossChecks s entries' d' m') := by
  have hpages : m.pages.values.Perm m'.pages.values :=
    h.pages.elim (fun hperm => hperm.2.map _) fun heq => heq ▸ .refl _
  rw [crossChecks, crossChecks, ← hmapping]
  refine .append (.append (unmappedOperations_alike h (hpaths .logic) _) ?_)
    (duplicateRoutes_alike hpages hnames (hpaths .ui) hfirst)
  split
  · exact missingMappings_alike h (hpaths .logic)
  · exact .refl _

structure Graphs.Same (g g' : Graphs) : Prop where
  components : g.components.Same g'.components
  roles : g.roles.Same g'.roles
  required : g.required.Same g'.required

theorem graphs_alike (h : m.Alike F m') (relationships : List Relationship) :
    (graphs m relationships).Same (graphs m' relationships) where
  components := DependencyGraph.same_ofItems _ _ (fun _ => rfl) h.components
  roles := DependencyGraph.same_ofItems _ _ (fun _ => rfl) h.roles
  required := DependencyGraph.same_ofRequired h.entities relationships

theorem cycleDiagnostics_alike {g g' : Graphs} (h : g.Same g')
    (hpaths : ∀ layer name, (d.paths layer).get? name = (d'.paths layer).get? name) :
    cycleDiagnostics s d g = cycleDiagnostics s d' g' := by
  have hpath (layer : Layer) (base node : String) :
      pathIn (d.paths layer) base node = pathIn (d'.paths layer) base node := by
    rw [pathIn_congr (hpaths layer)]
  rw [cycleDiagnostics, cycleDiagnostics, h.components.cycleDiagnostics (hpath .components _),
    h.roles.cycleDiagnostics (hpath .security _), h.required.cycleDiagnostics (hpath .domain _)]

/-! ### Documents -/

/-- Pages stand under their own names. -/
theorem nodup_pages {limit : Int} (h : LoadedDocument.ofEntries limit entries = .ok d) :
    ((DocumentModel.ofLayers d).pages.values.map (·.name)).Nodup := by
  obtain ⟨t, result, u, hl⟩ := LoadedDocument.exists_loaded h .ui
  obtain ⟨pages, hpages, hdeclared⟩ := hl.exists_declared (Layer.isCollection_ui limit _)
  have hstored : (DocumentModel.ofLayers d).pages = pages.items := LayerData.ui.inj hdeclared.part
  have hkept := kept_declareAll hpages
  have hnames : pages.items.values.map (·.name) = pages.items.keys := by
    rw [Named.values, Named.keys, List.map_map]
    refine List.map_congr_left fun e he => ?_
    obtain ⟨body, path, notes, hload⟩ := hkept e he
    exact Pages.name_loadPage _ _ _ _ _ hload _ rfl
  rw [hstored, hnames]
  exact (mirrors_declareAll (by decide) hl.unfrozen (hl.fresh (by decide) (by decide)) hpages).nodupItems

/-- Nothing tells the documents apart but the order in which things come up. -/
structure Matches (E : String → Prop) (F : Prop) (s : Settings) (entries entries' : Entries) :
    Prop where
  keys : (entries.map (·.1)).Perm (entries'.map (·.1))
  layers : ∀ layer : Layer, layer.Matches E F s.typeLimit (entries.field layer.label)
    (entries'.field layer.label)
  metadata : entries.field "metadata" = entries'.field "metadata"
  mapping : hasMapping entries = hasMapping entries'

/-- Where the first of several declarations counts, it is the same: the first use of an error whose
name is declared otherwise, and the first page to take a route. -/
structure SameFirsts (E : String → Prop) (d d' : LoadedDocument) : Prop where
  errors : ∀ name ns,
    d.symbols.declaring? name [.entity, .customType, .operation] = some ns → E name
  pages : ∀ route, firstPage? (DocumentModel.ofLayers d).pages.values route =
    firstPage? (DocumentModel.ofLayers d').pages.values route

theorem Matches.check (hm : Matches E F s entries entries')
    (hd : LoadedDocument.ofEntries s.typeLimit entries = .ok d)
    (h : Document.check s entries = .ok r) :
    ∃ r' d', Document.check s entries' = .ok r' ∧
      LoadedDocument.ofEntries s.typeLimit entries' = .ok d' ∧ d.Alike E F s.typeLimit d' ∧
      r.document.SameButOrder r'.document ∧
      (SameFirsts E d d' → SameClasses Diagnostic.order r.diagnostics r'.diagnostics) := by
  obtain ⟨d₁, hd₁, h⟩ := bind_eq_ok.mp h
  obtain rfl : d = d₁ := Except.ok.inj (hd.symm.trans hd₁)
  obtain ⟨resolved, hresolved, h⟩ := bind_eq_ok.mp h
  obtain ⟨extra, hextra, h⟩ := bind_eq_ok.mp h
  cases h
  obtain ⟨d', hd', halike⟩ := LoadedDocument.Alike.ofEntries hm.layers hd
  obtain ⟨resolved', hresolved', hrecords, hdangling⟩ :=
    resolveAll_alike halike.symbols halike.references hresolved
  have hmodel := DocumentModel.Alike.ofLayers halike
  have hentities : SameEntities d.symbols.freeze d'.symbols.freeze := halike.symbols.has .entity
  obtain ⟨hrelationships, hinferred⟩ :=
    inferRelationships_alike hentities (halike.paths .domain) hmodel.entities
  have hgraphs := graphs_alike hmodel (inferRelationships d.symbols.freeze
    (DocumentModel.ofLayers d).entities.values (d.paths .domain)).relationships
  have hloaded : SameClasses Diagnostic.order d.diagnostics d'.diagnostics := by
    have hclasses : SameClasses Diagnostic.order (d.diagnostics.filterMap some)
        (d'.diagnostics.filterMap some) := halike.diagnostics.sameClasses fun ha hb hx hy horder => by
      cases hx
      cases hy
      obtain ⟨hpath, hcategory, hmessage⟩ := Diagnostic.eq_of_order horder
      exact ItemFault.eq_of_message ha hb hpath hcategory hmessage
    rwa [List.filterMap_some, List.filterMap_some] at hclasses
  refine ⟨_, d', bind_eq_ok.mpr ⟨d', hd', bind_eq_ok.mpr ⟨resolved', hresolved',
    bind_eq_ok.mpr ⟨extra, hm.metadata ▸ hextra, rfl⟩⟩⟩, hd', halike, ?_, fun hfirsts => ?_⟩
  · exact
      { project := hmodel.project
        customTypes := hmodel.customTypes
        entities := hmodel.entities.toPerm
        relationships := hrelationships
        operations := hmodel.operations
        components := hmodel.components.toPerm
        workflows := hmodel.workflows
        pages := hmodel.pages.elim (·.2) fun heq => heq ▸ .refl _
        roles := hmodel.roles.toPerm
        security := hmodel.security
        resources := hmodel.resources
        integrations := hmodel.integrations
        mapping := hmodel.mapping
        metadata := rfl
        references := hrecords
        componentGraph := hrelationships ▸ hgraphs.components.adjacency
        roleGraph := hrelationships ▸ hgraphs.roles.adjacency }
  · dsimp only
    rw [← hrelationships, ← hm.metadata, cycleDiagnostics_alike hgraphs halike.paths]
    refine .append (.append (.append (.append (.append (.append (sectionWarnings_perm hm.keys) hloaded)
      (.refl _)) (hdangling hfirsts.errors)) hinferred) (.refl _)) ?_
    exact crossChecks_alike hmodel halike.paths hm.mapping (nodup_pages hd) hfirsts.pages

/-- Two documents were validated to the same but for the order in which things come up. -/
structure SameRun (E : String → Prop) (F : Prop) (limit : Int) (d d' : LoadedDocument)
    (r r' : ValidationResult) : Prop where
  alike : d.Alike E F limit d'
  part : ∀ layer, r.document.part layer = (DocumentModel.ofLayers d).part layer
  part' : ∀ layer, r'.document.part layer = (DocumentModel.ofLayers d').part layer
  document : r.document.SameButOrder r'.document
  diagnostics : SameFirsts E d d' → r.diagnostics = r'.diagnostics

theorem Matches.validate (hm : Matches E F s entries entries')
    (hlong : (Value.dict entries).hasLongKey = (Value.dict entries').hasLongKey)
    (hentries : entries ≠ []) (h : Document.validate s (.dict entries) positions = .ok r) :
    ∃ r' d d', Document.validate s (.dict entries') positions = .ok r' ∧
      LoadedDocument.ofEntries s.typeLimit entries = .ok d ∧
      LoadedDocument.ofEntries s.typeLimit entries' = .ok d' ∧ SameRun E F s.typeLimit d d' r r' := by
  have hentries' : entries' ≠ [] := by
    rintro rfl
    exact hentries (List.map_eq_nil_iff.mp (List.perm_nil.mp hm.keys))
  obtain ⟨hshort, result, hcheck, rfl⟩ := (validate_dict_eq_ok hentries).mp h
  obtain ⟨d, hchecked⟩ := checked_of_check hcheck
  obtain ⟨result', d', hcheck', hd', halike, hdocument, hclasses⟩ := hm.check hchecked.loaded hcheck
  obtain ⟨d₁, hchecked'⟩ := checked_of_check hcheck'
  obtain rfl : d₁ = d' := Except.ok.inj (hchecked'.loaded.symm.trans hd')
  refine ⟨_, d, d₁, (validate_dict_eq_ok hentries').mpr ⟨hlong ▸ hshort, result', hcheck', rfl⟩,
    hchecked.loaded, hd', halike, hchecked.part, hchecked'.part, hdocument, fun hfirsts => ?_⟩
  have hlocated : SameClasses Diagnostic.order
      (result.diagnostics.map (Diagnostic.locate positions))
      (result'.diagnostics.map (Diagnostic.locate positions)) :=
    (hclasses hfirsts).map (Diagnostic.order_locate positions)
  exact hlocated.mergeSort_eq

/-- Two documents one of which is the other one reordered are the same, or both have entries. -/
theorem same_or_entries {g g' : RawGraph} {below : String → Value → Value → Prop}
    (hg : ¬ g.SelfContaining) (hg' : ¬ g'.SelfContaining) (h : Reordered below g.value g'.value)
    (hr : validateGraph s g positions = .ok r) : validateGraph s g' positions = .ok r ∨
      ∃ entries entries' : Entries, Reordered below (.dict entries) (.dict entries') ∧ entries ≠ [] ∧
        Document.validate s (.dict entries) positions = .ok r ∧
        validateGraph s g' positions = Document.validate s (.dict entries') positions := by
  rw [validateGraph_eq_validate hg] at hr
  rw [validateGraph_eq_validate hg']
  rcases h.cases with heq | ⟨entries, entries', hv, hv', hentries⟩
  · exact .inl (heq ▸ hr)
  rw [hv] at hr
  rw [hv']
  by_cases hempty : entries = []
  · have hkeys := hentries.keys_perm
    rw [hempty] at hkeys hr
    rw [List.map_eq_nil_iff.mp (List.nil_perm.mp hkeys)]
    exact .inl hr
  · exact .inr ⟨entries, entries', hentries, hempty, hr, rfl⟩

/-! ### Declarations in another order -/

/-- The sections whose declarations may stand in any order, each with how it may differ. -/
def reorderable : Named (Value → Value → Prop) :=
  [("domain", Reordered (under [("types", Permuted), ("entities", Permuted)])),
    ("components", Permuted), ("security", Reordered (under [("roles", Permuted)]))]

theorem reorderable_refl (key : String) (v : Value) : under reorderable key v v := by
  refine Value.under_refl (fun e he v => ?_) key v
  simp only [reorderable, List.mem_cons, List.not_mem_nil, or_false] at he
  rcases he with rfl | rfl | rfl <;> exact .same v

theorem matches_reordered (h : Reordered (under reorderable) (.dict entries) (.dict entries')) :
    Matches (fun _ => True) False s entries entries' where
  keys := h.keys_perm
  layers layer := by
    have hlayer := h.field reorderable_refl layer.label
    cases layer with
    | domain => exact Layer.matches_domain hlayer
    | components => exact Layer.matches_components hlayer
    | security => exact Layer.matches_security hlayer
    | _ =>
        have heq : entries.field _ = entries'.field _ := hlayer
        rw [heq]
        exact Layer.matches_same _ _
  metadata := h.field reorderable_refl "metadata"
  mapping := by
    have heq : entries.field "mapping" = entries'.field "mapping" :=
      h.field reorderable_refl "mapping"
    rw [hasMapping, hasMapping, heq]

theorem hasLongKey_under {inner : Named (Value → Value → Prop)}
    (hinner : ∀ e ∈ inner, ∀ v v', e.2 v v' → v.hasLongKey = v'.hasLongKey) {v v' : Value}
    (h : Reordered (under inner) v v') : v.hasLongKey = v'.hasLongKey :=
  h.hasLongKey fun key v v' hunder => by
    rcases Value.under_cases hunder with rfl | ⟨e, he, hbelow⟩
    · rfl
    · exact hinner e he v v' hbelow

theorem hasLongKey_reordered (h : Reordered (under reorderable) v v') :
    v.hasLongKey = v'.hasLongKey := by
  refine hasLongKey_under (fun e he v v' hbelow => ?_) h
  simp only [reorderable, List.mem_cons, List.not_mem_nil, or_false] at he
  rcases he with rfl | rfl | rfl
  · exact hasLongKey_under (by simpa using fun _ _ => Permuted.hasLongKey) hbelow
  · exact Permuted.hasLongKey hbelow
  · exact hasLongKey_under (by simpa using fun _ _ => Permuted.hasLongKey) hbelow

/-- The order of the sections, and of the declarations of the domain, of components and of roles,
leaves no trace in the diagnostics, the relationships and the references. -/
theorem validateGraph_reordered {g g' : RawGraph} (hg : ¬ g.SelfContaining)
    (hg' : ¬ g'.SelfContaining) (h : Reordered (under reorderable) g.value g'.value)
    (hr : validateGraph s g positions = .ok r) :
    ∃ r', validateGraph s g' positions = .ok r' ∧ r.document.SameButOrder r'.document ∧
      r.diagnostics = r'.diagnostics := by
  rcases same_or_entries hg hg' h hr with hsame | ⟨entries, entries', hentries, hne, hr, hr'⟩
  · exact ⟨r, hsame, .refl _, rfl⟩
  · rw [hr']
    obtain ⟨r', d, d', hr', -, -, hrun⟩ := (matches_reordered hentries).validate
      (hasLongKey_reordered hentries) hne hr
    have hpages := (DocumentModel.Alike.ofLayers hrun.alike).pages.resolve_left fun hF => hF.1
    exact ⟨r', hr', hrun.document, hrun.diagnostics ⟨fun _ _ _ => trivial, fun _ => hpages ▸ rfl⟩⟩

def serviceOn (dependency : String) : Value :=
  .mapping [("type", .str "service"), ("dependencies", .str dependency)]

def lostServices : Named Value := [("Users", serviceOn "Gone"), ("Billing", serviceOn "Away")]

def ofServices (services : Named Value) : RawGraph :=
  ⟨#[], .value (.mapping [("components", .mapping services)])⟩

theorem validateGraph_reordered_lostServices :
    ∃ r r', validateGraph {} (ofServices lostServices) = .ok r ∧
      validateGraph {} (ofServices lostServices.reverse) = .ok r' ∧
      r.document.SameButOrder r'.document ∧ r.diagnostics = r'.diagnostics := by
  have hvalid : (validateGraph {} (ofServices lostServices)).isOk = true := by decide +kernel
  have hfinite (services : Named Value) : ¬ (ofServices services).SelfContaining := by
    rintro ⟨i, j, hroot, -⟩
    cases hroot
  have hservices : Permuted (.mapping lostServices) (.mapping lostServices.reverse) :=
    .mapping (by decide) (.cons ⟨rfl, rfl⟩ (.cons ⟨rfl, rfl⟩ .nil)) (List.reverse_perm _).symm
  have hsections : List.Forall₂ (fun e e' => e.1 = e'.1 ∧ under reorderable e.1 e.2 e'.2)
      [("components", Value.mapping lostServices)]
      [("components", Value.mapping lostServices.reverse)] := .cons ⟨rfl, hservices⟩ .nil
  have hdocument : Reordered (under reorderable) (ofServices lostServices).value
      (ofServices lostServices.reverse).value :=
    .mapping (List.nodup_singleton "components") hsections (.refl _)
  cases hr : validateGraph {} (ofServices lostServices) with
  | error e =>
      rw [hr] at hvalid
      cases hvalid
  | ok r =>
      obtain ⟨r', h⟩ := validateGraph_reordered (hfinite _) (hfinite _) hdocument hr
      exact ⟨r, r', rfl, h⟩

end Document

end AppSpec
