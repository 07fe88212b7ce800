import AppSpec.Proofs.Document.DeclarationOrder
import AppSpec.Proofs.Document.Integrity
import AppSpec.Proofs.Layer.FirstUse

/-!
Operations and pages in another order. The first operation to use an error declares it, and the
first page to take a route keeps it: where both stay the same, the order leaves no trace, and where
they do not, the diagnostics alone tell the documents apart.
-/

namespace AppSpec

open Value (Permuted Reordered under)

variable {s : Settings} {E : String → Prop} {F : Prop} {entries entries' : Entries} {v v' : Value}
  {m m' : DocumentModel} {d d' : LoadedDocument} {r r' : ValidationResult} {positions : Positions}

namespace DocumentModel

/-- The same page takes each route first. Of the errors whose names are declared otherwise, the same
operation lists each first. -/
structure SameFirsts (m m' : DocumentModel) : Prop where
  pages : ∀ route, Document.firstPage? m.pages.values route =
    Document.firstPage? m'.pages.values route
  operations : ∀ ns ∈ [Namespace.entity, .customType, .operation], ∀ error ∈ m.declared ns,
    Logic.firstUser? m.operations.values error = Logic.firstUser? m'.operations.values error

end DocumentModel

namespace Document

/-- Where no route is taken twice, the order of the pages does not count. -/
theorem firstPage?_perm {pages pages' : List Page} (h : pages.Perm pages')
    (hroutes : (pages.filterMap (·.route)).Nodup) (route : String) :
    firstPage? pages route = firstPage? pages' route := by
  have honce : (pages.filter fun p => p.route == some route).length ≤ 1 := by
    have hcount := List.nodup_iff_count_le_one.mp hroutes route
    rwa [List.count_filterMap, List.countP_eq_length_filter] at hcount
  have hfilter := h.filter fun p => p.route == some route
  rw [firstPage?, firstPage?, ← List.head?_filter, ← List.head?_filter]
  generalize pages.filter (fun p => p.route == some route) = taken at honce hfilter
  rcases taken with _ | ⟨page, _ | ⟨other, taken⟩⟩
  · rw [List.nil_perm.mp hfilter]
  · rw [List.singleton_perm.mp hfilter]
  · simp at honce

/-- The sections in which it counts which declaration is the first. -/
def behaviour : Named (Value → Value → Prop) :=
  [("logic", Reordered (under [("operations", Permuted)])),
    ("ui", Reordered (under [("pages", Permuted)]))]

theorem behaviour_refl (key : String) (v : Value) : under behaviour key v v := by
  refine Value.under_refl (fun e he v => ?_) key v
  simp only [behaviour, List.mem_cons, List.not_mem_nil, or_false] at he
  rcases he with rfl | rfl <;> exact .same v

theorem hasLongKey_behaviour (h : Reordered (under behaviour) v v') :
    v.hasLongKey = v'.hasLongKey := by
  refine hasLongKey_under (fun e he v v' hbelow => ?_) h
  simp only [behaviour, List.mem_cons, List.not_mem_nil, or_false] at he
  rcases he with rfl | rfl <;>
    exact hasLongKey_under (by simpa using fun _ _ => Permuted.hasLongKey) hbelow

theorem matches_behaviour (h : Reordered (under behaviour) (.dict entries) (.dict entries')) :
    Matches (SameFirstUse s.typeLimit (entries.field "logic") (entries'.field "logic")) True s
      entries entries' where
  keys := h.keys_perm
  layers layer := by
    have hlayer := h.field behaviour_refl layer.label
    cases layer with
    | logic => exact Layer.matches_logic hlayer
    | ui => exact Layer.matches_ui trivial hlayer
    | _ =>
        have heq : entries.field _ = entries'.field _ := hlayer
        rw [heq]
        exact Layer.matches_same _ _
  metadata := h.field behaviour_refl "metadata"
  mapping := by
    have heq : entries.field "mapping" = entries'.field "mapping" := h.field behaviour_refl "mapping"
    rw [hasMapping, hasMapping, heq]

/-- The operations of a loaded document, next to which no operation is declared before. -/
theorem exists_operations {limit : Int} (h : LoadedDocument.ofEntries limit entries = .ok d) :
    ∃ t operations, Logic.load limit (entries.field "logic") t = .ok operations ∧
      (DocumentModel.ofLayers d).operations = operations.items ∧ t.frozen = false ∧
      ∀ name, t.find? .operation name = none := by
  obtain ⟨t, result, u, hl⟩ := LoadedDocument.exists_loaded h .logic
  obtain ⟨operations, hload, hdeclared⟩ := hl.exists_declared (Layer.isCollection_logic limit _)
  exact ⟨t, operations, hload, LayerData.logic.inj hdeclared.part, hl.unfrozen,
    hl.fresh (by decide) (by decide)⟩

theorem sameFirstUse_of_firstUser {limit : Int} {error : String}
    (h : Reordered (under [("operations", Permuted)]) (entries.field "logic") (entries'.field "logic"))
    (hd : LoadedDocument.ofEntries limit entries = .ok d)
    (hd' : LoadedDocument.ofEntries limit entries' = .ok d')
    (hfirst : Logic.firstUser? (DocumentModel.ofLayers d).operations.values error =
      Logic.firstUser? (DocumentModel.ofLayers d').operations.values error) :
    SameFirstUse limit (entries.field "logic") (entries'.field "logic") error := by
  obtain ⟨t, operations, hload, hstored, hopen, hfresh⟩ := exists_operations hd
  obtain ⟨t', operations', hload', hstored', hopen', hfresh'⟩ := exists_operations hd'
  rw [hstored, hstored'] at hfirst
  exact Logic.sameFirstUse_of_firstUser h hopen hopen' hfresh hfresh' hload hload' hfirst

theorem declared_congr {ns : Namespace} (h : ∀ layer, m.part layer = m'.part layer) :
    m.declared ns = m'.declared ns := by
  have hdomain := LayerData.domain.inj (h .domain)
  have htypes : m.customTypes = m'.customTypes := congrArg Domain.Loaded.customTypes hdomain
  have hentities : m.entities = m'.entities := congrArg Domain.Loaded.entities hdomain
  cases ns with
  | entity => exact congrArg Named.keys hentities
  | customType => exact congrArg Named.keys htypes
  | operation => exact congrArg Named.keys (LayerData.logic.inj (h .logic))
  | component => exact congrArg Named.keys (LayerData.components.inj (h .components))
  | role => exact congrArg (fun p => Named.keys p.roles) (LayerData.security.inj (h .security))
  | integration => exact congrArg Named.keys (LayerData.integrations.inj (h .integrations))
  | resource => exact congrArg Named.keys (LayerData.infrastructure.inj (h .infrastructure))
  | error => rfl
  | workflow => exact congrArg Named.keys (LayerData.workflow.inj (h .workflow))
  | page => exact congrArg Named.keys (LayerData.ui.inj (h .ui))

/-- What is first in the models is first where they were loaded. -/
theorem SameRun.sameFirsts
    (hrun : SameRun (SameFirstUse s.typeLimit (entries.field "logic") (entries'.field "logic")) F
      s.typeLimit d d' r r')
    (h : Reordered (under behaviour) (.dict entries) (.dict entries'))
    (hd : LoadedDocument.ofEntries s.typeLimit entries = .ok d)
    (hd' : LoadedDocument.ofEntries s.typeLimit entries' = .ok d')
    (hfirsts : r.document.SameFirsts r'.document) :
    SameFirsts (SameFirstUse s.typeLimit (entries.field "logic") (entries'.field "logic")) d d' where
  errors error ns hns := by
    have hmem := List.mem_of_find?_eq_some hns
    have hhas : d.symbols.has ns error = true :=
      List.find?_some (p := fun ns => d.symbols.has ns error) hns
    have hne : ns ≠ .error := by
      rintro rfl
      revert hmem
      decide
    have hdeclared := ((LoadedDocument.sound_ofEntries hd).declared ns error hhas).resolve_left hne
    rw [← declared_congr hrun.part] at hdeclared
    have hfirst := hfirsts.operations ns hmem error hdeclared
    rw [LayerData.logic.inj (hrun.part .logic), LayerData.logic.inj (hrun.part' .logic)] at hfirst
    exact sameFirstUse_of_firstUser (h.field behaviour_refl "logic") hd hd' hfirst
  pages route := by
    have hpages := hfirsts.pages route
    rwa [LayerData.ui.inj (hrun.part .ui), LayerData.ui.inj (hrun.part' .ui)] at hpages

/-- Operations and pages may stand in any order. The diagnostics are the same where the first
operation to list an error, and the first page to take a route, are the same. -/
theorem validateGraph_reordered_behaviour {g g' : RawGraph} (hg : ¬ g.SelfContaining)
    (hg' : ¬ g'.SelfContaining) (h : Reordered (under behaviour) g.value g'.value)
    (hr : validateGraph s g positions = .ok r) :
    ∃ r', validateGraph s g' positions = .ok r' ∧ r.document.SameButOrder r'.document ∧
      (r.document.SameFirsts r'.document → r.diagnostics = r'.diagnostics) := by
  rcases same_or_entries hg hg' h hr with hsame | ⟨entries, entries', hentries, hne, hr, hr'⟩
  · exact ⟨r, hsame, .refl _, fun _ => rfl⟩
  · rw [hr']
    obtain ⟨r', d, d', hr', hd, hd', hrun⟩ := (matches_behaviour hentries).validate
      (hasLongKey_behaviour hentries) hne hr
    exact ⟨r', hr', hrun.document, fun hfirsts =>
      hrun.diagnostics (hrun.sameFirsts hentries hd hd' hfirsts)⟩

def ofPages (pages : Named Value) : RawGraph :=
  ⟨#[], .value (.mapping [("ui", .mapping [("pages", .mapping pages)])])⟩

def greeting : Named Value :=
  [("Start", .mapping [("route", .str "/")]), ("Home", .mapping [("route", .str "/home")])]

theorem validateGraph_reordered_behaviour_greeting :
    ∃ r r', validateGraph {} (ofPages greeting) = .ok r ∧
      validateGraph {} (ofPages greeting.reverse) = .ok r' ∧ r.document.SameButOrder r'.document ∧
      r.document.SameFirsts r'.document ∧ r.diagnostics = r'.diagnostics := by
  have hvalid : (match validateGraph {} (ofPages greeting) with
      | .ok r => decide ((r.document.pages.values.filterMap (·.route)).Nodup) &&
          [Namespace.entity, .customType, .operation].all fun ns => (r.document.declared ns).isEmpty
      | .error _ => false) = true := by decide +kernel
  have hfinite (pages : Named Value) : ¬ (ofPages pages).SelfContaining := by
    rintro ⟨i, j, hroot, -⟩
    cases hroot
  have hpages : Permuted (.mapping greeting) (.mapping greeting.reverse) :=
    .mapping (by decide) (.cons ⟨rfl, rfl⟩ (.cons ⟨rfl, rfl⟩ .nil)) (List.reverse_perm _).symm
  have hinner : List.Forall₂ (fun e e' => e.1 = e'.1 ∧ under [("pages", Permuted)] e.1 e.2 e'.2)
      [("pages", Value.mapping greeting)] [("pages", Value.mapping greeting.reverse)] :=
    .cons ⟨rfl, hpages⟩ .nil
  have hui : Reordered (under [("pages", Permuted)]) (.mapping [("pages", .mapping greeting)])
      (.mapping [("pages", .mapping greeting.reverse)]) :=
    .mapping (List.nodup_singleton "pages") hinner (.refl _)
  have hsections : List.Forall₂ (fun e e' => e.1 = e'.1 ∧ under behaviour e.1 e.2 e'.2)
      [("ui", Value.mapping [("pages", .mapping greeting)])]
      [("ui", Value.mapping [("pages", .mapping greeting.reverse)])] := .cons ⟨rfl, hui⟩ .nil
  have hdocument : Reordered (under behaviour) (ofPages greeting).value
      (ofPages greeting.reverse).value :=
    .mapping (List.nodup_singleton "ui") hsections (.refl _)
  cases hr : validateGraph {} (ofPages greeting) with
  | error e =>
      rw [hr] at hvalid
      cases hvalid
  | ok r =>
      rw [hr] at hvalid
      obtain ⟨hroutes, hdeclared⟩ := Bool.and_eq_true_iff.mp hvalid
      obtain ⟨r', hr', hsame, hdiagnostics⟩ :=
        validateGraph_reordered_behaviour (hfinite _) (hfinite _) hdocument hr
      have hfirsts : r.document.SameFirsts r'.document := by
        refine ⟨firstPage?_perm (hsame.pages.map _) (of_decide_eq_true hroutes), ?_⟩
        intro ns hns error herror
        rw [List.isEmpty_iff.mp (List.all_eq_true.mp hdeclared ns hns)] at herror
        cases herror
      exact ⟨r, r', rfl, hr', hsame, hfirsts, hdiagnostics hfirsts⟩

end Document

end AppSpec
