import AppSpec.Document.Graph
import AppSpec.Proofs.DiagnosticOrder
import AppSpec.Proofs.Layer.Layers

/-!
Referential integrity: where validation finds no fault with a reference, every name that the
document mentions is declared in that document.
-/

namespace AppSpec

namespace DocumentModel

theorem mentions_withLayer {m : DocumentModel} {data : LayerData} {spaces : List Namespace}
    {name : String} (h : (m.withLayer data).Mentions spaces name) :
    m.Mentions spaces name ∨ data.Mentions spaces name := by
  cases h with
  | customType hc hm =>
      cases data <;> first | exact .inl (.customType hc hm) | exact .inr (.inl ⟨_, hc, hm⟩)
  | entity he hm =>
      cases data <;> first | exact .inl (.entity he hm) | exact .inr (.inr ⟨_, he, hm⟩)
  | operation ho hm =>
      cases data <;> first | exact .inl (.operation ho hm) | exact .inr ⟨_, ho, hm⟩
  | component hc hm =>
      cases data <;> first | exact .inl (.component hc hm) | exact .inr ⟨_, hc, hm⟩
  | workflow hw hm =>
      cases data <;> first | exact .inl (.workflow hw hm) | exact .inr ⟨_, hw, hm⟩
  | page hp hm =>
      cases data <;> first | exact .inl (.page hp hm) | exact .inr ⟨_, hp, hm⟩
  | role hr hm =>
      cases data <;> first | exact .inl (.role hr hm) | exact .inr (.inl ⟨_, hr, hm⟩)
  | permission hp hm =>
      cases data <;> first | exact .inl (.permission hp hm) | exact .inr (.inr (.inl ⟨_, hp, hm⟩))
  | fieldAccess ha hm =>
      cases data <;> first | exact .inl (.fieldAccess ha hm) | exact .inr (.inr (.inr ⟨_, ha, hm⟩))
  | mappingKey h =>
      cases data <;> first | exact .inl (.mappingKey h) | exact .inr ⟨rfl, h⟩

theorem declared_withLayer (m : DocumentModel) (data : LayerData) (ns : Namespace) :
    (m.withLayer data).declared ns = (data.declared? ns).getD (m.declared ns) := by
  cases data <;> cases ns <;> rfl

end DocumentModel

/-! ### All layers -/

namespace LoadedDocument

structure Sound (d : LoadedDocument) : Prop where
  deferred : ∀ spaces name, (DocumentModel.ofLayers d).Mentions spaces name →
    Deferred d.references spaces name
  declared : ∀ ns name, d.symbols.has ns name = true →
    ns = .error ∨ name ∈ (DocumentModel.ofLayers d).declared ns

def Fresh (layer : Layer) (symbols : Symbols) : Prop :=
  ∀ ns ∈ layer.declares, ∀ name, symbols.has ns name = false

variable {d d' : LoadedDocument} {layer : Layer} {result : LayerResult} {after : Symbols}

theorem ofLayers_append (results : List LayerResult) (result : LayerResult)
    (before after : Symbols) :
    DocumentModel.ofLayers ⟨results ++ [result], after⟩ =
      (DocumentModel.ofLayers ⟨results, before⟩).withLayer result.data := by
  rw [DocumentModel.ofLayers, DocumentModel.ofLayers, List.foldl_append]
  rfl

theorem references_append (results : List LayerResult) (result : LayerResult)
    (before after : Symbols) :
    references ⟨results ++ [result], after⟩ =
      references ⟨results, before⟩ ++ result.notes.references := by
  rw [references, references, List.flatMap_append, List.flatMap_singleton]

theorem sound_start : Sound ⟨[], .empty⟩ := by
  constructor
  · intro spaces name h
    cases h <;> contradiction
  · intro ns name h
    cases h

theorem Sound.withLayer (h : Sound d) (hfresh : Fresh layer d.symbols)
    (hload : layer.Loads d.symbols result after) : Sound ⟨d.results ++ [result], after⟩ := by
  constructor
  · intro spaces name hm
    rw [ofLayers_append _ _ d.symbols] at hm
    rw [references_append _ _ d.symbols, deferred_append]
    exact (DocumentModel.mentions_withLayer hm).imp (h.deferred spaces name)
      (hload.deferred spaces name)
  · intro ns name hhas
    rw [ofLayers_append _ _ d.symbols, DocumentModel.declared_withLayer]
    rcases hload.gains ns name hhas with hhas | herror | ⟨names, hnames, hname⟩
    · refine (h.declared ns name hhas).imp_right fun hname => ?_
      cases hnames : result.data.declared? ns with
      | none => exact hname
      | some names =>
          rw [hfresh ns (hload.scope ns names hnames) name] at hhas
          cases hhas
    · exact .inl herror
    · rw [hnames]
      exact .inr hname

theorem Fresh.load {other : Layer} (h : Fresh other d.symbols) (hne : layer ≠ other)
    (hload : layer.Loads d.symbols result after) : Fresh other after := by
  intro ns hns name
  rw [Bool.eq_false_iff]
  intro hhas
  rcases hload.gains ns name hhas with hhas | rfl | ⟨names, hnames, -⟩
  · rw [h ns hns name] at hhas
    cases hhas
  · exact Layer.error_not_declared hns
  · exact Layer.declares_disjoint hne (hload.scope ns names hnames) hns

theorem Sound.loadLayers {limit : Int} {entries : Entries} {layers : List Layer}
    (hnodup : layers.Nodup) (h : Sound d) (hfresh : ∀ layer ∈ layers, Fresh layer d.symbols)
    (hd : loadLayers limit entries layers d = .ok d') : Sound d' := by
  induction layers generalizing d with
  | nil =>
      cases hd
      exact h
  | cons layer layers ih =>
      obtain ⟨⟨result, after⟩, hload, hd⟩ := bind_eq_ok.mp hd
      obtain ⟨hnot, hnodup⟩ := List.nodup_cons.mp hnodup
      obtain ⟨hfirst, hrest⟩ := List.forall_mem_cons.mp hfresh
      have hload := Layer.loads_load hload
      refine ih hnodup (h.withLayer hfirst hload) (fun other hother => ?_) hd
      refine (hrest other hother).load ?_ hload
      rintro rfl
      exact hnot hother

theorem sound_ofEntries {limit : Int} {entries : Entries} (h : ofEntries limit entries = .ok d) :
    Sound d :=
  sound_start.loadLayers (by decide) (fun _ _ _ _ _ => rfl) h

end LoadedDocument

/-! ### Resolution -/

namespace Resolve

theorem one_byName {r : DeferredReference} (h : r.kind ≠ .field ∧ r.kind ≠ .mappingTarget)
    (t : Symbols) : one t r = byName t r := by
  rw [one]
  split
  · next hkind => exact absurd hkind h.1
  · next hkind => exact absurd hkind h.2
  · rfl

theorem declared_of_clean {t : Symbols} {r : DeferredReference} {spaces : List Namespace}
    {name : String} (h : r.Asks spaces name) (hclean : (one t r).diagnostic? r.path = none) :
    ∃ ns ∈ spaces, ns ≠ .error ∧ t.has ns name = true := by
  rw [one_byName h.byName, byName] at hclean
  split at hclean
  · next ns hfound =>
      rw [Symbols.declaring?, h.name_eq, h.spaces_eq] at hfound
      have hns := List.mem_of_find?_eq_some hfound
      have hhas := List.find?_some hfound
      exact ⟨ns, hns, fun heq => h.declarable (h.spaces_eq ▸ heq ▸ hns), hhas⟩
  · cases hclean

theorem diagnostic?_category {path : String} {r : Resolution} {d : Diagnostic}
    (h : r.diagnostic? path = some d) : d.category = .reference := by
  cases r with
  | found _ => cases h
  | dangling _ _ _ =>
      cases h
      rfl

end Resolve

namespace Document

variable {s : Settings} {positions : Positions} {r : ValidationResult}

theorem check_eq_ok {entries : Entries} (h : check s entries = .ok r) :
    ∃ loaded resolved, LoadedDocument.ofEntries s.typeLimit entries = .ok loaded ∧
      resolveAll loaded.symbols.freeze loaded.references = .ok resolved ∧
      (∀ spaces name, r.document.Mentions spaces name →
        (DocumentModel.ofLayers loaded).Mentions spaces name) ∧
      (∀ ns, r.document.declared ns = (DocumentModel.ofLayers loaded).declared ns) ∧
      ∀ d ∈ resolved.diagnostics, d ∈ r.diagnostics := by
  obtain ⟨loaded, hloaded, h⟩ := bind_eq_ok.mp h
  obtain ⟨resolved, hresolved, h⟩ := bind_eq_ok.mp h
  obtain ⟨metadata, -, h⟩ := bind_eq_ok.mp h
  cases h
  refine ⟨loaded, resolved, hloaded, hresolved, ?_, ?_, ?_⟩
  · intro spaces name hm
    cases hm with
    | customType hc hm => exact .customType hc hm
    | entity he hm => exact .entity he hm
    | operation ho hm => exact .operation ho hm
    | component hc hm => exact .component hc hm
    | workflow hw hm => exact .workflow hw hm
    | page hp hm => exact .page hp hm
    | role hr hm => exact .role hr hm
    | permission hp hm => exact .permission hp hm
    | fieldAccess ha hm => exact .fieldAccess ha hm
    | mappingKey h => exact .mappingKey h
  · intro ns
    cases ns <;> rfl
  · intro d hd
    simp only [List.mem_append, hd, true_or, or_true]

theorem resolveAll_diagnostic {t : Symbols} {references : List DeferredReference}
    {resolved : ResolvedReferences} (h : resolveAll t references = .ok resolved)
    {reference : DeferredReference} (hmem : reference ∈ references) {d : Diagnostic}
    (hd : (Resolve.one t reference).diagnostic? reference.path = some d) :
    d ∈ resolved.diagnostics := by
  rw [resolveAll] at h
  split at h
  · cases h
  · cases h
    exact List.mem_append_left _ (List.mem_filterMap.mpr ⟨reference, hmem, hd⟩)

theorem declared_of_check {entries : Entries} (h : check s entries = .ok r)
    (hclean : ∀ d ∈ r.diagnostics, d.category ≠ .reference) {spaces : List Namespace} {name : String}
    (hm : r.document.Mentions spaces name) : ∃ ns ∈ spaces, name ∈ r.document.declared ns := by
  obtain ⟨loaded, resolved, hloaded, hresolved, hmentions, hdeclared, hdiagnostics⟩ :=
    check_eq_ok h
  have hsound := LoadedDocument.sound_ofEntries hloaded
  obtain ⟨reference, hmem, hasks⟩ := hsound.deferred spaces name (hmentions spaces name hm)
  have hnone : (Resolve.one loaded.symbols.freeze reference).diagnostic? reference.path = none := by
    rw [Option.eq_none_iff_forall_ne_some]
    intro d hd
    exact hclean d (hdiagnostics d (resolveAll_diagnostic hresolved hmem hd))
      (Resolve.diagnostic?_category hd)
  obtain ⟨ns, hns, herror, hhas⟩ := Resolve.declared_of_clean hasks hnone
  refine ⟨ns, hns, ?_⟩
  rw [hdeclared]
  exact (hsound.declared ns name hhas).resolve_left herror

theorem not_mentions_rejected {message : String} {spaces : List Namespace} {name : String} :
    ¬ (rejected message positions).document.Mentions spaces name := by
  intro hm
  cases hm <;> contradiction

theorem declared_of_validate {v : Value} (h : validate s v positions = .ok r)
    (hclean : ∀ d ∈ r.diagnostics, d.category ≠ .reference) {spaces : List Namespace} {name : String}
    (hm : r.document.Mentions spaces name) : ∃ ns ∈ spaces, name ∈ r.document.declared ns := by
  unfold validate at h
  split at h
  · cases h
    exact absurd hm not_mentions_rejected
  · cases h
    exact absurd hm not_mentions_rejected
  · split at h
    · cases h
    · obtain ⟨result, hresult, h⟩ := bind_eq_ok.mp h
      cases h
      refine declared_of_check hresult (fun d hd => ?_) hm
      rw [← Diagnostic.category_locate positions d]
      exact hclean _ ((Diagnostic.sorted_perm _).mem_iff.mpr (List.mem_map_of_mem hd))
  · cases h
    exact absurd hm not_mentions_rejected

theorem mention_declared
    (h : (∃ v, validate s v positions = .ok r) ∨ ∃ g, validateGraph s g positions = .ok r)
    (hclean : ∀ d ∈ r.diagnostics, d.category ≠ .reference) {spaces : List Namespace}
    {name : String} (hm : r.document.Mentions spaces name) :
    ∃ ns ∈ spaces, name ∈ r.document.declared ns := by
  rcases h with ⟨v, h⟩ | ⟨g, h⟩
  · exact declared_of_validate h hclean hm
  · rw [validateGraph] at h
    split at h
    · cases h
      exact absurd hm not_mentions_rejected
    · cases h
      exact absurd hm not_mentions_rejected
    · split at h
      · cases h
        exact absurd hm not_mentions_rejected
      · exact declared_of_validate h hclean hm
      · cases h

def employee : Entity :=
  ⟨"Employee", none,
    [("manager", ⟨"manager", some (.optional (.custom "Employee" []) []), some "Employee?"⟩)], []⟩

def staff : Value :=
  .dict [(.str "domain",
    .dict [(.str "Employee", .dict [(.str "manager", .scalar (.str "Employee?"))])])]

theorem mention_declared_staff : ∃ r, validate {} staff = .ok r ∧
    r.document.Mentions [.entity, .customType] "Employee" ∧
    ∃ ns ∈ [.entity, .customType], "Employee" ∈ r.document.declared ns := by
  have hvalid : (match validate {} staff with
      | .ok r => (r.diagnostics, r.document.entities)
      | .error _ => ([], [])) = ([], [("Employee", employee)]) := by cbv
  cases h : validate {} staff with
  | error e =>
      rw [h] at hvalid
      cases hvalid
  | ok r =>
      rw [h] at hvalid
      obtain ⟨hdiagnostics, hentities⟩ := Prod.mk.inj hvalid
      have hemployee : ("Employee", employee) ∈ r.document.entities := by
        rw [hentities]
        exact List.mem_singleton_self _
      have hm : r.document.Mentions [.entity, .customType] "Employee" :=
        .entity hemployee (.field (List.mem_singleton_self _) rfl (.optional .custom))
      refine ⟨r, rfl, hm, mention_declared (.inl ⟨staff, h⟩) (fun d hd => ?_) hm⟩
      rw [hdiagnostics] at hd
      cases hd

end Document

end AppSpec
