import AppSpec.Layer.Basic
import AppSpec.Proofs.Layer.Declared

/-!
What one layer adds: the mentions of its data are deferred, and every name that the symbol table
gains is one that its data declares, or the name of an error.
-/

namespace AppSpec

open Declared (ItemMentions)

namespace LayerData

def Mentions : LayerData → Mentioning
  | .nothing => fun _ _ => False
  | .project _ => fun _ _ => False
  | .domain d => fun spaces name =>
      ItemMentions CustomType.Mentions d.customTypes spaces name ∨
        ItemMentions Entity.Mentions d.entities spaces name
  | .logic items => ItemMentions Operation.Mentions items
  | .components items => ItemMentions Component.Mentions items
  | .workflow items => ItemMentions Workflow.Mentions items
  | .ui items => ItemMentions Page.Mentions items
  | .security policy => fun spaces name =>
      ItemMentions Role.Mentions policy.roles spaces name ∨
        Mentioning.ofList Permission.Mentions policy.permissions spaces name ∨
        Mentioning.ofList FieldAccess.Mentions policy.fieldAccess spaces name
  | .infrastructure _ => fun _ _ => False
  | .integrations _ => fun _ _ => False
  | .mapping entries => fun spaces name => spaces = [.operation] ∧ name ∈ entries.keys

def declared? : LayerData → Namespace → Option (List String)
  | .domain d, .customType => some d.customTypes.keys
  | .domain d, .entity => some d.entities.keys
  | .logic items, .operation => some items.keys
  | .components items, .component => some items.keys
  | .workflow items, .workflow => some items.keys
  | .ui items, .page => some items.keys
  | .security policy, .role => some policy.roles.keys
  | .infrastructure items, .resource => some items.keys
  | .integrations items, .integration => some items.keys
  | _, _ => none

end LayerData

namespace Layer

def declares : Layer → List Namespace
  | .project => []
  | .domain => [.customType, .entity]
  | .logic => [.operation]
  | .components => [.component]
  | .workflow => [.workflow]
  | .ui => [.page]
  | .security => [.role]
  | .infrastructure => [.resource]
  | .integrations => [.integration]
  | .mapping => []

theorem declares_disjoint {a b : Layer} (h : a ≠ b) {ns : Namespace} (hns : ns ∈ a.declares) :
    ns ∉ b.declares := by
  cases a <;> cases b <;> cases ns <;> simp [declares] at h hns ⊢

theorem error_not_declared {layer : Layer} : .error ∉ layer.declares := by
  cases layer <;> decide

structure Loads (layer : Layer) (before : Symbols) (result : LayerResult) (after : Symbols) :
    Prop where
  deferred : ∀ spaces name, result.data.Mentions spaces name →
    Deferred result.notes.references spaces name
  scope : ∀ ns names, result.data.declared? ns = some names → ns ∈ layer.declares
  gains : ∀ ns name, after.has ns name = true →
    before.has ns name = true ∨ ns = .error ∨
      ∃ names, result.data.declared? ns = some names ∧ name ∈ names

variable {layer : Layer} {before after : Symbols} {result : LayerResult}

theorem loads_nothing (layer : Layer) (symbols : Symbols) (notes : LayerNotes) :
    layer.Loads symbols ⟨layer, .nothing, notes⟩ symbols :=
  ⟨fun _ _ h => h.elim, fun _ _ h => (nomatch h), fun _ _ => .inl⟩

theorem loads_collected {α : Type} {data : Named α → LayerData} {mentions : α → Mentioning}
    {ns : Namespace} {d : Except Failure (Declared α)}
    (hmentions : ∀ items spaces name, (data items).Mentions spaces name →
      ItemMentions mentions items spaces name)
    (hdeclared : ∀ items other,
      (data items).declared? other = if other = ns then some (Named.keys items) else none)
    (hns : ns ∈ layer.declares) (hd : ∀ s, d = .ok s → Declared.Sound mentions ns before s)
    (h : collected layer data d = .ok (result, after)) : layer.Loads before result after := by
  obtain ⟨s, hs, h⟩ := bind_eq_ok.mp h
  cases h
  have hsound := hd s hs
  refine ⟨fun spaces name hm => hsound.deferred spaces name (hmentions _ _ _ hm), ?_, ?_⟩
  · intro other names hnames
    rw [hdeclared] at hnames
    split at hnames
    · next heq => exact heq ▸ hns
    · cases hnames
  · intro other name hhas
    rcases hsound.gains other name hhas with h | h | ⟨rfl, hname⟩
    · exact .inl h
    · exact .inr (.inl h)
    · exact .inr (.inr ⟨_, by rw [hdeclared, if_pos rfl], hname⟩)

theorem recordsItems_nothing {α : Type} (load : String → Value → String → Load (Option α)) :
    RecordsItems load fun _ _ _ => False :=
  fun _ _ _ _ _ _ _ _ _ ⟨_, _, h⟩ => h.elim

theorem loads_domain {limit : Int} {v : Value}
    (h : loadPresent limit .domain v before = .ok (result, after)) :
    Layer.domain.Loads before result after := by
  obtain ⟨⟨loaded, notes, symbols⟩, hloaded, h⟩ := bind_eq_ok.mp h
  cases h
  rw [Domain.load] at hloaded
  split at hloaded
  · cases hloaded
    exact loads_nothing _ _ _
  · obtain ⟨types, htypes, hloaded⟩ := bind_eq_ok.mp hloaded
    obtain ⟨entities, hentities, hloaded⟩ := bind_eq_ok.mp hloaded
    cases hloaded
    have htypes := sound_declareAll (Domain.records_loadCustomType limit) htypes
    have hentities := sound_declareAll (Domain.records_loadEntity limit) hentities
    refine ⟨?_, ?_, ?_⟩
    · rintro spaces name (hm | hm)
      · exact Notes.defers_append.mpr (.inl (htypes.deferred spaces name hm))
      · exact Notes.defers_append.mpr (.inr (hentities.deferred spaces name hm))
    · intro ns names hnames
      cases ns <;> simp [LayerData.declared?, declares] at hnames ⊢
    · intro ns name hhas
      rcases hentities.gains ns name hhas with hhas | herror | ⟨rfl, hname⟩
      · rcases htypes.gains ns name hhas with hhas | herror | ⟨rfl, hname⟩
        · exact .inl hhas
        · exact .inr (.inl herror)
        · exact .inr (.inr ⟨_, rfl, hname⟩)
      · exact .inr (.inl herror)
      · exact .inr (.inr ⟨_, rfl, hname⟩)

theorem loads_security {limit : Int} {v : Value}
    (h : loadPresent limit .security v before = .ok (result, after)) :
    Layer.security.Loads before result after := by
  obtain ⟨⟨loaded, notes, symbols⟩, hloaded, h⟩ := bind_eq_ok.mp h
  cases h
  obtain ⟨⟨entries?, first⟩, -, hloaded⟩ := bind_eq_ok.mp hloaded
  cases entries? with
  | none =>
      cases hloaded
      exact loads_nothing _ _ _
  | some entries =>
      obtain ⟨⟨items, more⟩, -, hloaded⟩ := bind_eq_ok.mp hloaded
      obtain ⟨roles, hroles, hloaded⟩ := bind_eq_ok.mp hloaded
      obtain ⟨⟨policy, last⟩, hpolicy, hloaded⟩ := bind_eq_ok.mp hloaded
      cases hloaded
      have hroles := ((Declared.sound_start before).note more).steps Security.records_loadRole hroles
      have heq := Security.loadPolicy_roles hpolicy
      refine ⟨?_, ?_, ?_⟩
      · rintro spaces name (hm | hm)
        · rw [heq] at hm
          exact Notes.defers_append.mpr (.inl (hroles.deferred spaces name hm))
        · have hlast := (Security.records_loadPolicy entries roles.items).deferred hpolicy hm
          exact Notes.defers_append.mpr (.inr hlast)
      · intro ns names hnames
        cases ns <;> simp [LayerData.declared?, declares] at hnames ⊢
      · intro ns name hhas
        rcases hroles.gains ns name hhas with hhas | herror | ⟨rfl, hname⟩
        · exact .inl hhas
        · exact .inr (.inl herror)
        · exact .inr (.inr ⟨_, rfl, heq ▸ hname⟩)

theorem loads_mapping {limit : Int} {v : Value}
    (h : loadPresent limit .mapping v before = .ok (result, after)) :
    Layer.mapping.Loads before result after := by
  obtain ⟨⟨loaded, notes⟩, hloaded, h⟩ := bind_eq_ok.mp h
  cases loaded with
  | none =>
      cases h
      exact loads_nothing _ _ _
  | some m =>
      cases h
      refine ⟨fun spaces name hm => ?_, fun _ _ h => (nomatch h), fun _ _ => .inl⟩
      exact (Mapping.records_load v).deferred hloaded ⟨m, rfl, hm⟩

theorem loads_project {limit : Int} {v : Value}
    (h : loadPresent limit .project v before = .ok (result, after)) :
    Layer.project.Loads before result after := by
  obtain ⟨⟨info, notes⟩, -, h⟩ := bind_eq_ok.mp h
  cases h
  cases info with
  | none => exact loads_nothing _ _ _
  | some info => exact ⟨fun _ _ h => h.elim, fun _ _ h => (nomatch h), fun _ _ => .inl⟩

theorem loads_load {limit : Int} {v : Value} (h : load limit layer v before = .ok (result, after)) :
    layer.Loads before result after := by
  rw [load] at h
  split at h
  · cases h
    exact loads_nothing _ _ _
  · cases layer with
    | project => exact loads_project h
    | domain => exact loads_domain h
    | logic =>
        exact loads_collected (fun _ _ _ => id) (fun _ ns => by cases ns <;> rfl) (by decide)
          (fun _ => sound_declareAll (Logic.records_loadOperation limit)) h
    | components =>
        exact loads_collected (fun _ _ _ => id) (fun _ ns => by cases ns <;> rfl) (by decide)
          (fun _ => sound_declareAll Components.records_loadComponent) h
    | workflow =>
        exact loads_collected (fun _ _ _ => id) (fun _ ns => by cases ns <;> rfl) (by decide)
          (fun _ => sound_declareAll Workflows.records_loadWorkflow) h
    | ui =>
        exact loads_collected (fun _ _ _ => id) (fun _ ns => by cases ns <;> rfl) (by decide)
          (fun _ => sound_declareAll Pages.records_loadPage) h
    | security => exact loads_security h
    | infrastructure =>
        refine loads_collected (fun _ _ _ hm => ?_) (fun _ ns => by cases ns <;> rfl) (by decide)
          (fun _ => sound_declareAll (recordsItems_nothing _)) h
        exact hm.elim
    | integrations =>
        refine loads_collected (fun _ _ _ hm => ?_) (fun _ ns => by cases ns <;> rfl) (by decide)
          (fun _ => sound_declareAll (recordsItems_nothing _)) h
        exact hm.elim
    | mapping => exact loads_mapping h

end Layer

end AppSpec
