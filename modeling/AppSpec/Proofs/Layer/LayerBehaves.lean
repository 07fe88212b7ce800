import AppSpec.Layer.Basic
import AppSpec.Proofs.Layer.CollectionBehaves
import AppSpec.Proofs.Layer.ItemBehaves
import AppSpec.Proofs.Layer.StepBehaves

/-!
Loading layers: where the numbers are short and no list of texts stands as a mapping with an entry
named `type`, every layer is loaded, and no diagnostic of it is fatal.
-/

namespace AppSpec

open Load (Behaves behaves_pure behaves_report behaves_reportAll behaves_eachSome behaves_defer
  behaves_checkShape behaves_text behaves_textField behaves_deferField behaves_keysWritable
  behaves_extraFields behaves_ite mild_report mild_reject)

variable {P : Prop} {π : Permitted}

/-! ### Permissions and access to fields -/

namespace Security

theorem behaves_loadPermission {path : String} {p : Nat × Value} (h : P → p.2.Short)
    (hshape : P → Shape.UntypedBody .permission p.2) :
    Behaves P .notFatal (loadPermission path p) := by
  unfold loadPermission
  dsimp only
  split
  · next entries heq =>
      have hentries (hP : P) : Entries.Short entries := Entries.short_dict (heq ▸ h hP)
      refine (behaves_checkShape fun hP => hshape hP entries heq).next fun _ => ?_
      split
      · refine behaves_ite (fun _ => behaves_pure none) fun _ => ?_
        refine (behaves_defer trivial).next fun _ => ?_
        refine (behaves_deferField hentries rfl (by decide)).next fun roles => ?_
        refine (behaves_textField hentries).next fun rateLimit => ?_
        exact (behaves_textField hentries).next fun filter => behaves_pure _
      · exact behaves_pure none
  · exact mild_reject nofun

theorem behaves_loadFieldAccess {path : String} {p : Nat × Value} (h : P → p.2.Short)
    (hshape : P → Shape.UntypedBody .fieldAccess p.2) :
    Behaves P .notFatal (loadFieldAccess path p) := by
  unfold loadFieldAccess
  dsimp only
  split
  · next entries heq =>
      have hentries (hP : P) : Entries.Short entries := Entries.short_dict (heq ▸ h hP)
      refine (Load.behaves_lift fun hP =>
        Load.check_eq_ok (hshape hP entries heq) _).bind fun problems _ hproblems => ?_
      refine behaves_ite (fun _ => ?_) fun _ => ?_
      · refine (behaves_defer trivial).next fun _ => ?_
        refine (behaves_deferField hentries rfl (by decide)).next fun readRoles => ?_
        exact (behaves_deferField hentries rfl (by decide)).next fun writeRoles => behaves_pure _
      · refine (behaves_reportAll (Load.fault_misshapen (Load.lift_eq_ok hproblems))).next fun _ => ?_
        exact behaves_pure none
  · exact mild_reject nofun

theorem behaves_loadListed {α : Type} {load : String → Nat × Value → Load (Option α)} {v : Value}
    {path problem : String} (hload : ∀ items, v = .list items →
      ∀ p ∈ Load.indexed items, Behaves P .notFatal (load path p)) :
    Behaves P .notFatal (loadListed load v path problem) := by
  unfold loadListed
  split
  · exact behaves_pure []
  · next items => exact behaves_eachSome fun p hp => hload items rfl p hp
  · exact mild_reject nofun

end Security

namespace Entries

def TextKeys (entries : Entries) : Prop := ∀ e ∈ entries, ∃ s, e.1 = .str s

end Entries

def Value.TextKeys (v : Value) : Prop := ∀ entries : Entries, v = .dict entries → entries.TextKeys

namespace Security

theorem namedSettings_runs {entries : Entries} (h : entries.TextKeys) :
    ∃ named, namedSettings entries = .ok named := by
  have hall : ∃ named, entries.mapM namedSetting = .ok named := by
    induction entries with
    | nil => exact ⟨[], rfl⟩
    | cons e entries ih =>
        obtain ⟨named, hnamed⟩ := ih fun e he => h e (List.mem_cons_of_mem _ he)
        obtain ⟨s, hs⟩ := h e List.mem_cons_self
        have hone : namedSetting e = .ok (s, e.2) := by
          rw [namedSetting, hs]
          rfl
        refine ⟨(s, e.2) :: named, ?_⟩
        rw [List.mapM_cons, hone, hnamed]
        rfl
  obtain ⟨named, hnamed⟩ := hall
  exact ⟨_, by rw [namedSettings, hnamed]; rfl⟩

end Security

/-! ### The other layers -/

theorem Infrastructure.behaves_loadResource {id : String} {body : Value} {path : String}
    (hbody : P → body.Short) : Behaves P .notFatal (loadResource id body path) := by
  unfold loadResource
  split
  · exact behaves_pure _
  · exact behaves_pure _
  · next entries =>
      have hentries (hP : P) : Entries.Short entries := Entries.short_dict (hbody hP)
      refine (behaves_textField hentries).next fun kind => ?_
      exact (behaves_extraFields hentries).next fun _ => behaves_pure _
  · exact mild_reject nofun

theorem Integrations.behaves_loadIntegration {id : String} {body : Value} {path : String}
    (hbody : P → body.Short) : Behaves P .notFatal (loadIntegration id body path) := by
  refine behaves_bodyEntries nofun hbody fun entries hentries _ => ?_
  refine (behaves_checkShape fun _ =>
    Shape.untyped_of_no_texts (by decide) entries).next fun _ => ?_
  refine (behaves_textField hentries).next fun kind => ?_
  refine (behaves_textField hentries).next fun baseUrl => ?_
  refine (Components.behaves_loadMembers fun hP => (hentries hP).field _).next fun operations => ?_
  exact (behaves_extraFields hentries).next fun config => behaves_pure _

theorem Project.behaves_loadInfo {v : Value} (h : P → v.Short) :
    Behaves P .notFatal (loadInfo v) := by
  unfold loadInfo Load.mapping?
  split
  · next entries =>
      have hentries (hP : P) : Entries.Short entries := Entries.short_dict (h hP)
      rw [Load.load_pure_bind]
      refine (behaves_checkShape fun _ =>
        Shape.untyped_of_no_texts (by decide) entries).next fun _ => ?_
      refine (behaves_textField hentries).next fun name => ?_
      refine (behaves_textField hentries).next fun version => ?_
      refine (behaves_textField hentries).next fun description => ?_
      refine (behaves_textField hentries).next fun language => ?_
      exact (behaves_extraFields hentries).next fun extra => behaves_pure _
  · refine (mild_reject (by nofun)).bind fun entries? notes h => ?_
    obtain ⟨_, _, _, -, hnone, -⟩ := Load.load_bind_eq_ok.mp h
    cases hnone
    exact behaves_pure none

namespace Mapping

theorem behaves_bindTarget {operation : String} {target : Value} {path : String} {s : Entries} :
    Behaves P .notFatal (bindTarget operation target path s) := by
  unfold bindTarget
  extract_lets accept
  have haccept (target : Option String) : Behaves P .notFatal (accept target) := by
    refine behaves_ite (fun _ => mild_reject nofun) fun _ => ?_
    refine (behaves_defer trivial).next fun _ => ?_
    cases target with
    | none => exact (behaves_pure ()).next fun _ => behaves_pure _
    | some name => exact (behaves_defer trivial).next fun _ => behaves_pure _
  split
  · exact haccept none
  · exact haccept _
  · exact mild_reject nofun

theorem behaves_bindEntries {entries : AppSpec.Entries} {s : Entries} :
    Behaves P .notFatal (bindEntries entries s) := by
  induction entries generalizing s with
  | nil => exact behaves_pure s
  | cons e entries ih => exact behaves_bindTarget.next fun _ => ih

theorem behaves_bindItem {index : Nat} {v : Value} {s : Entries} :
    Behaves P .notFatal (bindItem index v s) := by
  unfold bindItem
  dsimp only
  split
  · next entries =>
      refine (Load.behaves_lift fun _ => Load.check_eq_ok
        (Shape.untyped_of_no_texts (by decide) entries) _).bind fun problems _ hproblems => ?_
      refine behaves_ite (fun _ => behaves_bindTarget) fun _ => ?_
      refine (behaves_reportAll (Load.fault_misshapen (Load.lift_eq_ok hproblems))).next fun _ => ?_
      exact behaves_pure s
  · exact mild_reject nofun

theorem behaves_bindItems {items : List (Nat × Value)} {s : Entries} :
    Behaves P .notFatal (bindItems items s) := by
  induction items generalizing s with
  | nil => exact behaves_pure s
  | cons item items ih => exact behaves_bindItem.next fun _ => ih

theorem behaves_load {v : Value} (h : P → v.Short) : Behaves P .notFatal (load v) := by
  unfold load
  split
  · refine (behaves_keysWritable fun hP => Entries.short_dict (h hP)).next fun _ => ?_
    exact behaves_bindEntries.next fun _ => behaves_pure _
  · exact behaves_bindItems.next fun _ => behaves_pure _
  · exact mild_reject nofun

end Mapping

/-! ### Collections and layers -/

namespace CollectionItem

def bodies (items : Load (List CollectionItem)) : List Value :=
  match items with
  | .ok (items, _) =>
      items.filterMap fun item =>
        match item with
        | .named _ body _ => some body
        | .malformed _ => none
  | .error _ => []

theorem mem_bodies {items : List CollectionItem} {notes : Notes} {name path : String} {body : Value}
    (h : .named name body path ∈ items) : body ∈ bodies (.ok (items, notes)) :=
  List.mem_filterMap.mpr ⟨_, h, rfl⟩

end CollectionItem

theorem Load.Behaves.mild {α : Type} {limit : Int} {uses : Prop} {x : Load α}
    (h : Behaves P (.item limit uses) x) : Behaves P .notFatal x :=
  ⟨h.runs, fun hx d hd => (h.faults hx d hd).severity_ne_fatal, fun _ _ _ => trivial,
    fun _ => .inl trivial⟩

structure Declared.Mild {α : Type} (s : Declared α) : Prop where
  unfrozen : s.symbols.frozen = false
  faults : ∀ d ∈ s.notes.diagnostics, d.severity ≠ .fatal

section Collections

variable {α : Type} {ns : Namespace} {define : α → Definition}
  {load : String → Value → String → Load (Option α)} {v : Value} {path : String} {symbols : Symbols}

theorem steps_mild {items : List CollectionItem} {s : Declared α} (hs : s.Mild)
    (hmalformed : ∀ d, .malformed d ∈ items → d.severity ≠ .fatal)
    (hload : ∀ name body below, .named name body below ∈ items →
      Behaves True .notFatal (load name body below)) :
    ∃ s', Declared.steps ns define load items s = .ok s' ∧ s'.Mild := by
  have hruns : ∀ item ∈ items, Declared.RunsItem load item := by
    intro item hitem
    cases item with
    | malformed d => trivial
    | named name body below => exact (hload name body below hitem).runs trivial
  have hpermits : ∀ item ∈ items, Declared.PermitsItem .notFatal load item := by
    intro item hitem
    cases item with
    | malformed d => exact hmalformed d hitem
    | named name body below =>
        have hbehaves := hload name body below hitem
        exact ⟨nofun, hbehaves.faults, hbehaves.references, hbehaves.uses⟩
  have hruns : ∃ s', Declared.steps ns define load items s = .ok s' ∧ s'.symbols.frozen = false :=
    Declared.steps_runs hs.unfrozen hruns
  obtain ⟨s', hsteps, hfrozen⟩ := hruns
  have hstart : s.Permits .notFatal := ⟨hs.faults, fun _ _ => trivial⟩
  exact ⟨s', hsteps, hfrozen, (hstart.steps hpermits hsteps).faults⟩

theorem mild_start {notes : Notes} (hfrozen : symbols.frozen = false)
    (hnotes : ∀ d ∈ notes.diagnostics, d.severity ≠ .fatal) :
    ((Declared.start symbols).note notes : Declared α).Mild := by
  refine ⟨hfrozen, fun d hd => ?_⟩
  exact (List.mem_append.mp hd).elim (fun hd => absurd hd List.not_mem_nil) (hnotes d)

theorem declareAll_mild (hfrozen : symbols.frozen = false) (hv : v.Short)
    (hload : ∀ name body below, body ∈ CollectionItem.bodies (CollectionItem.all v path) →
      body.Short → Behaves True .notFatal (load name body below)) :
    ∃ s, declareAll ns define load v path symbols = .ok s ∧ s.Mild := by
  have hall : Behaves True .notFatal (CollectionItem.all v path) :=
    CollectionItem.behaves_all fun _ => hv
  obtain ⟨items, notes, hitems⟩ := hall.runs trivial
  have hstart : ((Declared.start symbols).note notes : Declared α).Mild :=
    mild_start hfrozen (hall.faults hitems)
  obtain ⟨s, hsteps, hmild⟩ : ∃ s, Declared.steps ns define load items
      ((Declared.start symbols).note notes) = .ok s ∧ s.Mild := by
    refine steps_mild hstart (CollectionItem.fault_all (π := .notFatal) hitems) ?_
    intro name body below hitem
    refine hload name body below ?_ (CollectionItem.short_all hitems hv name body below hitem)
    rw [hitems]
    exact CollectionItem.mem_bodies hitem
  exact ⟨s, bind_eq_ok.mpr ⟨_, hitems, hsteps⟩, hmild⟩

end Collections

namespace Security

theorem behaves_listedRole {v : Value} (h : P → v.Short) : Behaves P π (listedRole v) := by
  unfold listedRole
  split
  · exact behaves_pure _
  · refine behaves_ite (fun _ => behaves_pure _) fun _ => ?_
    exact (behaves_keysWritable fun hP => Entries.short_dict (h hP)).next fun _ => behaves_pure _
  · exact behaves_pure _

theorem listedRole_cases {v : Value} {item : CollectionItem} {notes : Notes}
    (h : listedRole v = .ok (item, notes)) :
    item = .ofListItem rolesPath (0, v) ∨
      ∃ name body below, item = .named name body below ∧ (v.Short → body.Short) := by
  unfold listedRole at h
  split at h
  · next s =>
      cases h
      cases s.isEmpty with
      | true => exact .inl rfl
      | false => exact .inr ⟨_, _, _, rfl, fun _ => Entries.short_nil.dict⟩
  · next key body =>
      split at h
      · cases h
        exact .inl rfl
      · obtain ⟨_, _, _, -, h, -⟩ := Load.load_bind_eq_ok.mp h
        cases h
        exact .inr ⟨_, _, _, rfl, fun hv => (Entries.short_dict hv).values _ List.mem_cons_self⟩
  · cases h
    exact .inl rfl

theorem fault_listedRole {v : Value} {notes : Notes} {d : Diagnostic}
    (h : listedRole v = .ok (.malformed d, notes)) : π.fault d := by
  rcases listedRole_cases h with hitem | ⟨name, body, below, hitem, -⟩
  · exact CollectionItem.fault_malformed hitem.symm
  · cases hitem

theorem short_listedRole {v : Value} {name below : String} {body : Value} {notes : Notes}
    (h : listedRole v = .ok (.named name body below, notes)) (hv : v.Short) : body.Short := by
  rcases listedRole_cases h with hitem | ⟨name, body, below, hitem, hshort⟩
  · exact CollectionItem.short_ofListItem hitem.symm hv
  · cases hitem
    exact hshort hv

theorem behaves_roleItems {v : Value} (h : P → v.Short) : Behaves P π (roleItems v) := by
  unfold roleItems
  split
  · refine Load.behaves_each fun v hv => behaves_listedRole fun hP => ?_
    cases h hP with
    | list hitems => exact hitems v hv
  · exact CollectionItem.behaves_all h

theorem fault_roleItems {v : Value} {items : List CollectionItem} {notes : Notes}
    (h : roleItems v = .ok (items, notes)) : ∀ d, .malformed d ∈ items → π.fault d := by
  intro d hd
  unfold roleItems at h
  split at h
  · obtain ⟨v, -, notes, hlisted⟩ := Load.mem_of_each h hd
    exact fault_listedRole hlisted
  · exact CollectionItem.fault_all h d hd

theorem short_roleItems {v : Value} {items : List CollectionItem} {notes : Notes}
    (h : roleItems v = .ok (items, notes)) (hv : v.Short) :
    ∀ name body below, .named name body below ∈ items → body.Short := by
  intro name body below hitem
  unfold roleItems at h
  split at h
  · obtain ⟨item, hmem, notes, hlisted⟩ := Load.mem_of_each h hitem
    cases hv with
    | list hitems => exact short_listedRole hlisted (hitems _ hmem)
  · exact CollectionItem.short_all h hv name body below hitem

/-- No list of texts in a role, a permission or a rule for a field stands as a mapping with an entry
named `type`, and all settings of the authentication are named by texts. -/
structure Orderly (entries : Entries) : Prop where
  roles : ∀ body ∈ CollectionItem.bodies (roleItems (entries.field "roles")),
    Shape.UntypedBody .role body
  permissions : ∀ items, entries.field "permissions" = .list items →
    ∀ v ∈ items, Shape.UntypedBody .permission v
  fieldAccess : ∀ items, entries.field "field_access" = .list items →
    ∀ v ∈ items, Shape.UntypedBody .fieldAccess v
  authentication : (entries.field "authentication").TextKeys

theorem behaves_loadPolicy {entries : Entries} {roles : Named Role} (hshort : entries.Short)
    (h : Orderly entries) : Behaves True .notFatal (loadPolicy entries roles) := by
  have hitem {field : String} {items : List Value} (heq : entries.field field = .list items)
      {p : Nat × Value} (hp : p ∈ Load.indexed items) : p.2.Short := by
    have hfield := hshort.field field
    rw [heq] at hfield
    cases hfield with
    | list hitems => exact hitems _ (Load.mem_indexed hp)
  unfold loadPolicy
  refine (behaves_loadListed fun items heq p hp => ?_).next fun permissions => ?_
  · exact behaves_loadPermission (fun _ => hitem heq hp) fun _ =>
      h.permissions items heq _ (Load.mem_indexed hp)
  refine (behaves_loadListed fun items heq p hp => ?_).next fun fieldAccess => ?_
  · exact behaves_loadFieldAccess (fun _ => hitem heq hp) fun _ =>
      h.fieldAccess items heq _ (Load.mem_indexed hp)
  dsimp only
  split
  · next settings heq =>
      refine (Load.behaves_lift fun _ => namedSettings_runs ?_).next fun _ => behaves_pure _
      exact h.authentication settings heq
  · exact (behaves_pure _).next fun _ => behaves_pure _

end Security

theorem Domain.short_sections {v : Value} {s : Sections} (h : sections? v = some s) (hv : v.Short) :
    s.types.Short ∧ s.entities.Short := by
  unfold sections? at h
  split at h
  · have hentries := Entries.short_dict hv
    split at h
    · next hinner =>
        cases h
        exact ⟨hentries.field _, hentries.text? hinner⟩
    · cases h
      exact ⟨hentries.field _, (hentries.without _).dict⟩
  · cases h
    exact ⟨.scalar .null, hv⟩
  · cases h

namespace Layer

/-- No list of texts of a layer stands as a mapping with an entry named `type`. -/
def Orderly (layer : Layer) (v : Value) : Prop :=
  match layer with
  | .logic =>
      let (items, path) := unwrapped v "logic" "operations"
      ∀ body ∈ CollectionItem.bodies (CollectionItem.all items path),
        Shape.UntypedBody .operation body
  | .components =>
      ∀ body ∈ CollectionItem.bodies (CollectionItem.all v "components"),
        Shape.UntypedBody .component body
  | .ui =>
      let (items, path) := unwrapped v "ui" "pages"
      ∀ body ∈ CollectionItem.bodies (CollectionItem.all items path), Shape.UntypedBody .page body
  | .security => ∀ entries, v = .dict entries → Security.Orderly entries
  | _ => True

structure Mild (x : Except Failure (LayerResult × Symbols)) : Prop where
  runs : ∃ result after, x = .ok (result, after) ∧ after.frozen = false ∧
    ∀ d ∈ result.notes.diagnostics, d.severity ≠ .fatal

theorem mild_collected {α : Type} {layer : Layer} {data : Named α → LayerData}
    {d : Except Failure (Declared α)} (h : ∃ s, d = .ok s ∧ s.Mild) :
    Mild (collected layer data d) := by
  obtain ⟨s, rfl, hs⟩ := h
  exact ⟨_, _, rfl, hs.unfrozen, hs.faults⟩

theorem mild_domain {limit : Int} {v : Value} {symbols : Symbols} (hfrozen : symbols.frozen = false)
    (hv : v.Short) : Mild (loadPresent limit .domain v symbols) := by
  suffices h : ∃ loaded notes after, Domain.load limit v symbols = .ok (loaded, notes, after) ∧
      after.frozen = false ∧ ∀ d ∈ notes.diagnostics, d.severity ≠ .fatal by
    obtain ⟨loaded, notes, after, hload, hafter, hfaults⟩ := h
    exact ⟨_, _, bind_eq_ok.mpr ⟨_, hload, rfl⟩, hafter, hfaults⟩
  rw [Domain.load]
  cases hsections : Domain.sections? v with
  | none =>
      refine ⟨_, _, _, rfl, hfrozen, fun d hd => ?_⟩
      rw [List.mem_singleton.mp hd]
      nofun
  | some s =>
      obtain ⟨htypes, hentities⟩ := Domain.short_sections hsections hv
      obtain ⟨types, hloadTypes, hmildTypes⟩ : ∃ types, declareAll .customType .customType
          (Domain.loadCustomType limit) s.types "domain.types" symbols = .ok types ∧ types.Mild :=
        declareAll_mild hfrozen htypes fun name body below _ hshort =>
          (Domain.behaves_loadCustomType fun _ => hshort).mild
      obtain ⟨entities, hloadEntities, hmildEntities⟩ : ∃ entities, declareAll .entity .entity
          (Domain.loadEntity limit) s.entities s.entitiesPath types.symbols = .ok entities ∧
            entities.Mild :=
        declareAll_mild hmildTypes.unfrozen hentities fun name body below _ hshort =>
          (Domain.behaves_loadEntity fun _ => hshort).mild
      refine ⟨_, _, _, bind_eq_ok.mpr ⟨_, hloadTypes, bind_eq_ok.mpr ⟨_, hloadEntities, rfl⟩⟩,
        hmildEntities.unfrozen, fun d hd => ?_⟩
      exact (List.mem_append.mp hd).elim (hmildTypes.faults d) (hmildEntities.faults d)

theorem mild_security {limit : Int} {v : Value} {symbols : Symbols} (hfrozen : symbols.frozen = false)
    (hv : v.Short) (h : Orderly .security v) : Mild (loadPresent limit .security v symbols) := by
  suffices h : ∃ policy notes after, Security.load v symbols = .ok (policy, notes, after) ∧
      after.frozen = false ∧ ∀ d ∈ notes.diagnostics, d.severity ≠ .fatal by
    obtain ⟨policy, notes, after, hload, hafter, hfaults⟩ := h
    exact ⟨_, _, bind_eq_ok.mpr ⟨_, hload, rfl⟩, hafter, hfaults⟩
  rw [Security.load]
  unfold Load.mapping?
  split
  · next entries =>
      have hentries := Entries.short_dict hv
      have horderly := h entries rfl
      have hroles : (Entries.field entries "roles").Short := hentries.field "roles"
      have hitems : Behaves True .notFatal (Security.roleItems (Entries.field entries "roles")) :=
        Security.behaves_roleItems fun _ => hroles
      obtain ⟨items, notes, hload⟩ := hitems.runs trivial
      obtain ⟨declared, hsteps, hmild⟩ : ∃ s, Declared.steps .role .role Security.loadRole items
          ((Declared.start symbols).note notes) = .ok s ∧ s.Mild := by
        refine steps_mild (mild_start hfrozen (hitems.faults hload))
          (Security.fault_roleItems (π := .notFatal) hload) fun name body below hitem => ?_
        refine Security.behaves_loadRole
          (fun _ => Security.short_roleItems hload hroles name body below hitem) fun _ => ?_
        refine horderly.roles body ?_
        rw [hload]
        exact CollectionItem.mem_bodies hitem
      have hpolicy : Behaves True .notFatal (Security.loadPolicy entries declared.items) :=
        Security.behaves_loadPolicy hentries horderly
      obtain ⟨policy, more, hloadPolicy⟩ := hpolicy.runs trivial
      refine ⟨_, _, _, bind_eq_ok.mpr ⟨_, rfl, bind_eq_ok.mpr ⟨(items, notes), hload,
        bind_eq_ok.mpr ⟨_, hsteps, bind_eq_ok.mpr ⟨(policy, more), hloadPolicy, rfl⟩⟩⟩⟩, hmild.unfrozen, fun d hd => ?_⟩
      exact (List.mem_append.mp hd).elim (hmild.faults d) (hpolicy.faults hloadPolicy d)
  · refine ⟨_, _, _, rfl, hfrozen, fun d hd => ?_⟩
    cases List.mem_singleton.mp hd
    nofun

theorem mild_project {limit : Int} {v : Value} {symbols : Symbols} (hfrozen : symbols.frozen = false)
    (hv : v.Short) : Mild (loadPresent limit .project v symbols) := by
  have hinfo : Behaves True .notFatal (Project.loadInfo v) := Project.behaves_loadInfo fun _ => hv
  obtain ⟨info, notes, hload⟩ := hinfo.runs trivial
  exact ⟨_, _, bind_eq_ok.mpr ⟨_, hload, rfl⟩, hfrozen, hinfo.faults hload⟩

theorem mild_mapping {limit : Int} {v : Value} {symbols : Symbols} (hfrozen : symbols.frozen = false)
    (hv : v.Short) : Mild (loadPresent limit .mapping v symbols) := by
  have hmapping : Behaves True .notFatal (Mapping.load v) := Mapping.behaves_load fun _ => hv
  obtain ⟨loaded, notes, hload⟩ := hmapping.runs trivial
  cases loaded with
  | none => exact ⟨_, _, bind_eq_ok.mpr ⟨_, hload, rfl⟩, hfrozen, hmapping.faults hload⟩
  | some m => exact ⟨_, _, bind_eq_ok.mpr ⟨_, hload, rfl⟩, hfrozen, hmapping.faults hload⟩

theorem mild_load {limit : Int} {layer : Layer} {v : Value} {symbols : Symbols}
    (hfrozen : symbols.frozen = false) (hv : v.Short) (h : Orderly layer v) :
    Mild (load limit layer v symbols) := by
  rw [load]
  split
  · exact ⟨_, _, rfl, hfrozen, List.forall_mem_nil _⟩
  · cases layer with
    | project => exact mild_project hfrozen hv
    | domain => exact mild_domain hfrozen hv
    | logic =>
        refine mild_collected (declareAll_mild hfrozen (short_unwrapped _ _ hv) ?_)
        intro name body below hbody hshort
        exact (Logic.behaves_loadOperation (fun _ => hshort) fun _ => h body hbody).mild
    | components =>
        refine mild_collected (declareAll_mild hfrozen hv fun name body below hbody hshort => ?_)
        exact Components.behaves_loadComponent (fun _ => hshort) fun _ => h body hbody
    | workflow =>
        refine mild_collected (declareAll_mild hfrozen hv fun name body below _ hshort => ?_)
        exact Workflows.behaves_loadWorkflow fun _ => hshort
    | ui =>
        refine mild_collected (declareAll_mild hfrozen (short_unwrapped _ _ hv) ?_)
        intro name body below hbody hshort
        exact Pages.behaves_loadPage (fun _ => hshort) fun _ => h body hbody
    | security => exact mild_security hfrozen hv h
    | infrastructure =>
        refine mild_collected (declareAll_mild hfrozen hv fun name body below _ hshort => ?_)
        exact Infrastructure.behaves_loadResource fun _ => hshort
    | integrations =>
        refine mild_collected (declareAll_mild hfrozen hv fun name body below _ hshort => ?_)
        exact Integrations.behaves_loadIntegration fun _ => hshort
    | mapping => exact mild_mapping hfrozen hv

end Layer

end AppSpec
