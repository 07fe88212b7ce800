import AppSpec.Layer.Basic
import AppSpec.Proofs.Layer.Below
import AppSpec.Proofs.SymbolTable

/-!
Loading layers: all that a layer reports and refers to stands below the name of the layer.
-/

namespace AppSpec

open AppSpec.Path (Below)
open Load

variable {base path : String}

/-! ### Collections -/

namespace CollectionItem

/-- The path of an item, or of what is wrong with it. -/
def place : CollectionItem → String
  | .named _ _ path => path
  | .malformed d => d.path

theorem place_ofListItem (path : String) (p : Nat × Value) :
    Below path (ofListItem path p).place := by
  have hunnamed : Below path (unnamed path p.1).place := (Below.refl path).item p.1
  unfold ofListItem
  split
  · split
    · exact hunnamed
    · split
      · split
        · exact hunnamed
        · exact (Below.refl path).child _
      · exact hunnamed
  · exact hunnamed

theorem below_all {v : Value} : StaysBelow base (all v path) := by
  unfold all
  split
  · exact below_pure []
  · exact (below_keysWritable _).next fun _ => below_pure _
  · exact below_pure _
  · exact below_pure _

theorem place_all {v : Value} {items : List CollectionItem} {notes : Notes}
    (h : all v path = .ok (items, notes)) : ∀ item ∈ items, Below path item.place := by
  intro item hitem
  unfold all at h
  split at h
  · cases h
    cases hitem
  · obtain ⟨_, _, _, -, h, -⟩ := load_bind_eq_ok.mp h
    cases h
    obtain ⟨e, -, rfl⟩ := List.mem_map.mp hitem
    exact (Below.refl path).child _
  · cases h
    obtain ⟨p, -, rfl⟩ := List.mem_map.mp hitem
    exact place_ofListItem path p
  · cases h
    cases List.mem_singleton.mp hitem
    exact Below.refl path

end CollectionItem

theorem SymbolTable.path_define {δ : Type} {t u : SymbolTable δ} {ns : Namespace} {name : String}
    {definition : δ} {d : Diagnostic} (h : t.define ns name definition path = .ok (some d, u)) :
    d.path = path := by
  obtain ⟨c, -, rfl⟩ := exists_clash_of_define h
  rfl

section Collections

variable {α : Type} {ns : Namespace} {define : α → Definition}
  {load : String → Value → String → Load (Option α)} {s s' : Declared α}

namespace Declared

theorem below_note (h : s.notes.StandBelow base) {more : Notes} (hmore : more.StandBelow base) :
    (s.note more).notes.StandBelow base := h.append hmore

theorem below_noteOne (h : s.notes.StandBelow base) {d : Diagnostic} (hd : Below base d.path) :
    (s.note { diagnostics := [d] }).notes.StandBelow base :=
  below_note h ⟨by simpa using hd, List.forall_mem_nil _⟩

theorem below_step (hload : ItemStaysBelow load) {item : CollectionItem}
    (h : s.notes.StandBelow base) (hitem : Below base item.place)
    (hs' : step ns define load item s = .ok s') : s'.notes.StandBelow base := by
  have hnoted {name path : String} {body : Value} {found : Option α} {notes : Notes}
      (hitem : Below base path) (hloaded : load name body path = .ok (found, notes)) :
      (s.note notes).notes.StandBelow base :=
    below_note h (((hload name body path).notes hloaded).mono hitem)
  cases stepped hs' with
  | malformed d => exact below_noteOne h hitem
  | empty hloaded => exact hnoted hitem hloaded
  | taken hloaded _ hdefine =>
      exact below_noteOne (hnoted hitem hloaded) (SymbolTable.path_define hdefine ▸ hitem)
  | kept hloaded => exact hnoted hitem hloaded

theorem below_steps (hload : ItemStaysBelow load) {items : List CollectionItem}
    (h : s.notes.StandBelow base) (hitems : ∀ item ∈ items, Below base item.place)
    (hs' : steps ns define load items s = .ok s') : s'.notes.StandBelow base :=
  steps_keep (P := fun s => s.notes.StandBelow base)
    (fun item hitem _ _ h hs' => below_step hload h (hitems item hitem) hs') h hs'

theorem below_start (symbols : Symbols) {notes : Notes} (h : notes.StandBelow base) :
    ((start symbols : Declared α).note notes).notes.StandBelow base :=
  Notes.below_empty.append h

end Declared

theorem below_declareAll (hload : ItemStaysBelow load) (hbase : Below base path) {v : Value}
    {symbols : Symbols} (h : declareAll ns define load v path symbols = .ok s) :
    s.notes.StandBelow base := by
  obtain ⟨⟨items, notes⟩, hitems, h⟩ := bind_eq_ok.mp h
  refine Declared.below_steps hload (Declared.below_start symbols ?_) (fun item hitem => ?_) h
  · exact CollectionItem.below_all.notes hitems
  · exact hbase.trans (CollectionItem.place_all hitems item hitem)

end Collections

/-! ### Roles, permissions and access to fields -/

namespace Security

theorem below_listedRole {v : Value} : StaysBelow base (listedRole v) := by
  unfold listedRole
  split
  · exact below_pure _
  · exact below_ite (below_pure _) ((below_keysWritable _).next fun _ => below_pure _)
  · exact below_pure _

theorem place_listedRole {v : Value} {item : CollectionItem} {notes : Notes}
    (h : listedRole v = .ok (item, notes)) : Below rolesPath item.place := by
  have hlisted := CollectionItem.place_ofListItem rolesPath (0, v)
  have hchild (name : String) : Below rolesPath (Path.child rolesPath name) :=
    (Below.refl rolesPath).child name
  unfold listedRole at h
  split at h
  · cases h
    split
    · exact hlisted
    · exact hchild _
  · split at h
    · cases h
      exact hlisted
    · obtain ⟨_, _, _, -, h, -⟩ := load_bind_eq_ok.mp h
      cases h
      exact hchild _
  · cases h
    exact hlisted

theorem below_roleItems {v : Value} : StaysBelow base (roleItems v) := by
  unfold roleItems
  split
  · exact below_each fun v _ => below_listedRole
  · exact CollectionItem.below_all

theorem place_roleItems {v : Value} {items : List CollectionItem} {notes : Notes}
    (h : roleItems v = .ok (items, notes)) : ∀ item ∈ items, Below rolesPath item.place := by
  intro item hitem
  unfold roleItems at h
  split at h
  · obtain ⟨v, -, notes, hlisted⟩ := mem_of_each h hitem
    exact place_listedRole hlisted
  · exact CollectionItem.place_all h item hitem

theorem below_roles {v : Value} {symbols : Symbols} {items : List CollectionItem} {notes : Notes}
    {s : Declared Role} (hitems : roleItems v = .ok (items, notes))
    (h : Declared.steps .role .role loadRole items ((Declared.start symbols).note notes) = .ok s) :
    s.notes.StandBelow rolesPath :=
  Declared.below_steps below_loadRole (Declared.below_start symbols (below_roleItems.notes hitems))
    (place_roleItems hitems) h

theorem below_loadPermission {p : Nat × Value} (h : Below base path) :
    StaysBelow base (loadPermission path p) := by
  have hitem := h.item p.1
  unfold loadPermission
  dsimp only
  split
  · refine (below_checkShape hitem).next fun _ => ?_
    split
    · refine below_ite (below_pure none) ?_
      refine (below_defer (hitem.child _) _ _ _).next fun _ => ?_
      refine (below_deferField hitem).next fun roles => ?_
      refine (below_textField hitem).next fun rateLimit => ?_
      exact (below_textField hitem).next fun filter => below_pure _
    · exact below_pure none
  · exact below_reject hitem none

theorem below_loadFieldAccess {p : Nat × Value} (h : Below base path) :
    StaysBelow base (loadFieldAccess path p) := by
  have hitem := h.item p.1
  unfold loadFieldAccess
  dsimp only
  split
  · refine (below_lift _).bind fun problems _ hproblems => below_ite ?_ ?_
    · refine (below_defer (hitem.child _) _ _ _).next fun _ => ?_
      refine (below_deferField hitem).next fun readRoles => ?_
      exact (below_deferField hitem).next fun writeRoles => below_pure _
    · refine (below_reportAll fun d hd => ?_).next fun _ => below_pure none
      exact hitem.trans (below_check (lift_eq_ok hproblems) d hd)
  · exact below_reject hitem none

theorem below_loadListed {α : Type} {load : String → Nat × Value → Load (Option α)} {v : Value}
    {problem : String} (h : Below base path) (hload : ∀ p, StaysBelow base (load path p)) :
    StaysBelow base (loadListed load v path problem) := by
  unfold loadListed
  split
  · exact below_pure []
  · exact below_eachSome fun p _ => hload p
  · exact below_reject h []

theorem below_loadPolicy {entries : Entries} {roles : Named Role} :
    StaysBelow "security" (loadPolicy entries roles) := by
  have hpermissions : Below "security" "security.permissions" := ⟨by decide⟩
  have hfields : Below "security" "security.field_access" := ⟨by decide⟩
  unfold loadPolicy
  refine (below_loadListed hpermissions fun p => below_loadPermission hpermissions).next
    fun permissions => ?_
  refine (below_loadListed hfields fun p => below_loadFieldAccess hfields).next ?_
  intro fieldAccess
  dsimp only
  split
  · exact (below_lift _).next fun authentication => below_pure _
  · exact below_pure _

end Security

/-! ### The project and mappings -/

theorem Load.below_mapping? {v : Value} {what : String} (h : Below base path) :
    StaysBelow base (mapping? v path what) := by
  unfold mapping?
  split
  · exact below_pure _
  · exact below_reject h none

theorem Project.below_loadInfo {v : Value} : StaysBelow "project" (loadInfo v) := by
  have h := Below.refl "project"
  refine (below_mapping? h).next fun entries? => ?_
  cases entries? with
  | none => exact below_pure none
  | some entries =>
      refine (below_checkShape h).next fun _ => (below_textField h).next fun name => ?_
      refine (below_textField h).next fun version => (below_textField h).next fun description => ?_
      refine (below_textField h).next fun language => ?_
      exact below_extraFields.next fun extra => below_pure _

namespace Mapping

theorem below_bindTarget {operation : String} {target : Value} {s : Entries}
    (h : Below base path) : StaysBelow base (bindTarget operation target path s) := by
  unfold bindTarget
  extract_lets accept
  have haccept (target : Option String) : StaysBelow base (accept target) := by
    unfold accept
    split
    · exact below_reject h s
    · refine (below_defer h _ _ _).next fun _ => ?_
      cases target with
      | none => exact below_pure _
      | some name => exact (below_defer h _ _ _).next fun _ => below_pure _
  split
  · exact haccept none
  · exact haccept _
  · exact below_reject h s

theorem below_bindEntries {entries : AppSpec.Entries} {s : Entries} :
    StaysBelow "mapping" (bindEntries entries s) := by
  induction entries generalizing s with
  | nil => exact below_pure s
  | cons entry entries ih =>
      exact (below_bindTarget ((Below.refl "mapping").child _)).next fun _ => ih

theorem below_bindItem {index : Nat} {v : Value} {s : Entries} :
    StaysBelow "mapping" (bindItem index v s) := by
  have hitem := (Below.refl "mapping").item index
  unfold bindItem
  dsimp only
  split
  · refine (below_lift _).bind fun problems _ hproblems => below_ite ?_ ?_
    · exact below_bindTarget ((Below.refl "mapping").child _)
    · refine (below_reportAll fun d hd => ?_).next fun _ => below_pure s
      exact hitem.trans (below_check (lift_eq_ok hproblems) d hd)
  · exact below_reject hitem s

theorem below_bindItems {items : List (Nat × Value)} {s : Entries} :
    StaysBelow "mapping" (bindItems items s) := by
  induction items generalizing s with
  | nil => exact below_pure s
  | cons item items ih => exact below_bindItem.next fun _ => ih

theorem below_load {v : Value} : StaysBelow "mapping" (load v) := by
  unfold load
  split
  · exact (below_keysWritable _).next fun _ => below_bindEntries.next fun _ => below_pure _
  · exact below_bindItems.next fun _ => below_pure _
  · exact below_reject (Below.refl "mapping") none

end Mapping

/-! ### Layers -/

/-- All diagnostics and references that a layer leaves stand below the path. -/
structure LayerNotes.StandBelow (base : String) (notes : LayerNotes) : Prop where
  diagnostics : ∀ d ∈ notes.diagnostics, Below base d.path
  references : ∀ r ∈ notes.references, Below base r.path

theorem Notes.StandBelow.layer {notes : Notes} (h : notes.StandBelow base) (paths : Named String) :
    (LayerNotes.ofNotes notes paths).StandBelow base :=
  ⟨h.diagnostics, h.references⟩

theorem Domain.below_sections {v : Value} {s : Sections} (h : sections? v = some s) :
    Below "domain" s.entitiesPath := by
  have hdomain := Below.refl "domain"
  have hentities : Below "domain" "domain.entities" := ⟨by decide⟩
  unfold sections? at h
  split at h
  · split at h
    · cases h
      exact hentities
    · cases h
      exact hdomain
  · cases h
    exact hdomain
  · cases h

namespace Layer

variable {limit : Int} {layer : Layer} {v : Value} {t u : Symbols} {r : LayerResult}

theorem below_collected {α : Type} {data : Named α → LayerData} {d : Except Failure (Declared α)}
    (hd : ∀ s, d = .ok s → s.notes.StandBelow base) (h : collected layer data d = .ok (r, u)) :
    r.notes.StandBelow base := by
  obtain ⟨s, hs, h⟩ := bind_eq_ok.mp h
  cases h
  exact (hd s hs).layer s.paths

theorem below_domain (h : loadPresent limit .domain v t = .ok (r, u)) :
    r.notes.StandBelow "domain" := by
  obtain ⟨⟨loaded, notes, symbols⟩, hloaded, h⟩ := bind_eq_ok.mp h
  cases h
  rw [Domain.load] at hloaded
  split at hloaded
  · cases hloaded
    refine ⟨fun d hd => ?_, List.forall_mem_nil _⟩
    cases List.mem_singleton.mp hd
    exact Below.refl "domain"
  · next s hs =>
      obtain ⟨types, htypes, hloaded⟩ := bind_eq_ok.mp hloaded
      obtain ⟨entities, hentities, hloaded⟩ := bind_eq_ok.mp hloaded
      cases hloaded
      have htypes : types.notes.StandBelow "domain" :=
        below_declareAll (Domain.below_loadCustomType limit) ⟨by decide⟩ htypes
      have hentities : entities.notes.StandBelow "domain" :=
        below_declareAll (Domain.below_loadEntity limit) (Domain.below_sections hs) hentities
      exact (htypes.append hentities).layer _

theorem below_security (h : loadPresent limit .security v t = .ok (r, u)) :
    r.notes.StandBelow "security" := by
  obtain ⟨⟨loaded, notes, symbols⟩, hloaded, h⟩ := bind_eq_ok.mp h
  cases h
  obtain ⟨⟨entries?, first⟩, hsection, hloaded⟩ := bind_eq_ok.mp hloaded
  cases entries? with
  | none =>
      cases hloaded
      exact ((below_mapping? (Below.refl "security")).notes hsection).layer _
  | some entries =>
      obtain ⟨⟨items, more⟩, hitems, hloaded⟩ := bind_eq_ok.mp hloaded
      obtain ⟨roles, hroles, hloaded⟩ := bind_eq_ok.mp hloaded
      obtain ⟨⟨policy, last⟩, hpolicy, hloaded⟩ := bind_eq_ok.mp hloaded
      cases hloaded
      have hrolesPath : Below "security" Security.rolesPath := ⟨by decide⟩
      have hroles := (Security.below_roles hitems hroles).mono hrolesPath
      exact (hroles.append (Security.below_loadPolicy.notes hpolicy)).layer _

/-- All diagnostics and references of a layer stand below the layer's name. -/
theorem below_load (h : load limit layer v t = .ok (r, u)) : r.notes.StandBelow layer.label := by
  rw [load] at h
  split at h
  · cases h
    exact ⟨List.forall_mem_nil _, List.forall_mem_nil _⟩
  · cases layer with
    | project =>
        obtain ⟨⟨info, notes⟩, hinfo, h⟩ := bind_eq_ok.mp h
        cases h
        exact (Project.below_loadInfo.notes hinfo).layer []
    | domain => exact below_domain h
    | security => exact below_security h
    | mapping =>
        obtain ⟨⟨loaded, notes⟩, hloaded, h⟩ := bind_eq_ok.mp h
        have hnotes := Mapping.below_load.notes hloaded
        cases loaded with
        | none =>
            cases h
            exact hnotes.layer []
        | some m =>
            cases h
            exact hnotes.layer m.paths
    | logic =>
        have hpath := below_unwrapped v (Below.refl "logic") "operations"
        exact below_collected (fun _ => below_declareAll (Logic.below_loadOperation limit) hpath) h
    | components =>
        exact below_collected
          (fun _ => below_declareAll Components.below_loadComponent (Below.refl _)) h
    | workflow =>
        exact below_collected
          (fun _ => below_declareAll Workflows.below_loadWorkflow (Below.refl _)) h
    | ui =>
        have hpath := below_unwrapped v (Below.refl "ui") "pages"
        exact below_collected (fun _ => below_declareAll Pages.below_loadPage hpath) h
    | infrastructure =>
        exact below_collected
          (fun _ => below_declareAll Infrastructure.below_loadResource (Below.refl _)) h
    | integrations =>
        exact below_collected
          (fun _ => below_declareAll Integrations.below_loadIntegration (Below.refl _)) h

end Layer

end AppSpec
