import AppSpec.Proofs.Layer.EntityReports
import AppSpec.Proofs.Layer.FieldAccess
import AppSpec.Proofs.Layer.LayerBehaves

/-!
List items without a name. A collection in the form of a list reports each item that it cannot name,
once and in order, under the item's index, and nothing else stands there. Roles are taken one by
one, so that what a list of roles cannot name is reported at its first index throughout.
-/

namespace AppSpec

open AppSpec.Path (Below)
open Load

variable {path : String}

def unnamedText : String := "list items must be mappings with a 'name' or 'id'"

def unnamedAt (path : String) (i : Nat) : Diagnostic :=
  .syntaxError (Path.item path i) unnamedText

namespace Value

/-- The text under `name`, or under `id` where nothing is there; an empty text is no name. -/
def givenName? : Value → Option String
  | .dict entries =>
      (((Entries.text? entries "name").or (Entries.text? entries "id")).bind str?).filter
        fun name => !name.isEmpty
  | _ => none

/-- The name of a role in a list: a text, the only key of a mapping, or a name that is given. -/
def roleName? : Value → Option String
  | .str name => if name.isEmpty then none else some name
  | .dict [(key, body)] =>
      if key.same (.str "name") || key.same (.str "id") then givenName? (.dict [(key, body)])
      else some key.text
  | v => givenName? v

end Value

open Value (givenName? roleName?)

/-! ### Where a path stands -/

/-- The diagnostic stands at an item of the list at the path, or below one. -/
def inList (path : String) (d : Diagnostic) : Bool :=
  (path.toList ++ ['[']).isPrefixOf d.path.toList

theorem inList_iff {d : Diagnostic} :
    inList path d = true ↔ path.toList ++ ['['] <+: d.path.toList := List.isPrefixOf_iff_prefix

theorem Path.toList_item (path : String) (i : Nat) :
    (item path i).toList = path.toList ++ '[' :: ((toString (i : Int)).toList ++ [']']) := by
  simp [item, join]

theorem Path.toList_child (h : path ≠ "") (name : String) :
    (child path name).toList = path.toList ++ '.' :: name.toList := toList_join h (.name name)

theorem inList_of_item {d : Diagnostic} {i : Nat} (h : d.path = Path.item path i) :
    inList path d = true := by
  rw [inList_iff, h, Path.toList_item]
  exact ⟨(toString (i : Int)).toList ++ [']'], by simp⟩

theorem Path.item_injective {i j : Nat} (h : item path i = item path j) : i = j := by
  have hlist := congrArg String.toList h
  rw [toList_item, toList_item] at hlist
  have hdigits := List.append_cancel_right (List.cons.inj (List.append_cancel_left hlist)).2
  exact Nat.repr_injective (String.toList_inj.mp hdigits)

theorem inList_eq_false {base : String} {d : Diagnostic} (h : Below base d.path)
    (hbase : ¬ base.toList <+: path.toList ++ ['['])
    (hpath : ¬ path.toList ++ ['['] <+: base.toList) : inList path d = false := by
  by_contra hin
  rw [Bool.not_eq_false, inList_iff] at hin
  exact (List.prefix_or_prefix_of_prefix h.isPrefix hin).elim hbase hpath

theorem not_inList_child {name : String} {d : Diagnostic} (hpath : path ≠ "")
    (h : Below (Path.child path name) d.path) : inList path d = false := by
  refine inList_eq_false h ?_ ?_ <;> rw [Path.toList_child hpath] <;>
    exact fun hprefix => by simpa using (List.prefix_append_right_inj _).mp hprefix

/-! ### Items of a list -/

namespace CollectionItem

/-- What the item reports for want of a name. -/
def fault? : CollectionItem → Option Diagnostic
  | .named .. => none
  | .malformed d => some d

theorem givenName?_dict (entries : Entries) :
    givenName? (.dict entries) = (nameKey? entries).bind fun key =>
      (Entries.field entries key).str?.filter fun name => !name.isEmpty := by
  simp only [givenName?, nameKey?, List.find?_cons, Entries.has, Entries.field]
  cases hname : Entries.text? entries "name" <;> cases hid : Entries.text? entries "id" <;>
    simp [hname, hid]

theorem ofListItem_eq (path : String) (p : Nat × Value) :
    match givenName? p.2 with
    | some name => ∃ body, ofListItem path p = .named name body (Path.child path name)
    | none => ofListItem path p = .malformed (unnamedAt path p.1) := by
  obtain ⟨i, v⟩ := p
  cases v with
  | dict entries =>
      simp only [ofListItem, givenName?_dict]
      cases nameKey? entries with
      | none => rfl
      | some key =>
          simp only [Option.bind_some]
          generalize Entries.field entries key = written
          cases written with
          | scalar s =>
              cases s with
              | str name =>
                  cases hempty : name.isEmpty <;>
                    simp [Value.str?, Option.filter, hempty, unnamed, unnamedAt, unnamedText]
              | _ => rfl
          | _ => rfl
  | _ => rfl

/-- An item of a list: it is loaded at its name, or reported at an index. -/
def ListedAt (path : String) (item : CollectionItem) : Prop :=
  (∃ name body, item = .named name body (Path.child path name)) ∨
    ∃ i, item = .malformed (unnamedAt path i)

theorem listedAt_ofListItem (path : String) (p : Nat × Value) :
    ListedAt path (ofListItem path p) := by
  have h := ofListItem_eq path p
  cases hname : givenName? p.2 with
  | some name =>
      rw [hname] at h
      obtain ⟨body, h⟩ := h
      exact .inl ⟨name, body, h⟩
  | none =>
      rw [hname] at h
      exact .inr ⟨p.1, h⟩

theorem fault?_ofListItem (path : String) (p : Nat × Value) :
    (ofListItem path p).fault? =
      if (givenName? p.2).isNone then some (unnamedAt path p.1) else none := by
  have h := ofListItem_eq path p
  cases hname : givenName? p.2 with
  | some name =>
      rw [hname] at h
      obtain ⟨body, h⟩ := h
      rw [h]
      rfl
  | none =>
      rw [hname] at h
      rw [h]
      rfl

end CollectionItem

open CollectionItem (ListedAt)

theorem SymbolTable.category_define {δ : Type} {t u : SymbolTable δ} {ns : Namespace}
    {name : String} {definition : δ} {d : Diagnostic}
    (h : t.define ns name definition path = .ok (some d, u)) : d.category = .consistency := by
  obtain ⟨c, -, rfl⟩ := exists_clash_of_define h
  rfl

theorem CollectionItem.reports_all {P : Diagnostic → Prop} {v : Value} :
    Reports P (all v path) := by
  unfold all
  split
  · exact reports_pure []
  · exact (reports_keysWritable _).next fun _ => reports_pure _
  · exact reports_pure _
  · exact reports_pure _

section Collections

variable {α : Type} {ns : Namespace} {define : α → Definition}
  {load : String → Value → String → Load (Option α)} {s s' : Declared α}

namespace Declared

/-- An item adds its own reports, and at most a clash of its name. -/
theorem step_reports {P : Diagnostic → Prop} {name : String} {body : Value}
    (hload : Reports P (load name body path))
    (hclash : ∀ d, d.path = path → d.category = .consistency → P d)
    (h : step ns define load (.named name body path) s = .ok s') :
    ∃ more, s'.notes.diagnostics = s.notes.diagnostics ++ more ∧ ∀ d ∈ more, P d := by
  cases stepped h with
  | empty hloaded => exact ⟨_, rfl, hload.all hloaded⟩
  | taken hloaded _ hdefine =>
      refine ⟨_, List.append_assoc _ _ _, List.forall_mem_append.mpr ⟨hload.all hloaded, ?_⟩⟩
      exact List.forall_mem_singleton.mpr
        (hclash _ (SymbolTable.path_define hdefine) (SymbolTable.category_define hdefine))
  | kept hloaded => exact ⟨_, rfl, hload.all hloaded⟩

theorem step_named_reports {P : Diagnostic → Prop}
    (hload : ∀ name body path, Reports P (load name body path))
    (hclash : ∀ d, d.category = .consistency → P d) {item : CollectionItem}
    (hitem : item.fault? = none) (hs : ∀ d ∈ s.notes.diagnostics, P d)
    (h : step ns define load item s = .ok s') : ∀ d ∈ s'.notes.diagnostics, P d := by
  cases item with
  | malformed d => cases hitem
  | named name body path =>
      obtain ⟨more, hmore, hall⟩ := step_reports (hload name body path) (fun d _ => hclash d) h
      rw [hmore]
      exact List.forall_mem_append.mpr ⟨hs, hall⟩

theorem steps_named_reports {P : Diagnostic → Prop}
    (hload : ∀ name body path, Reports P (load name body path))
    (hclash : ∀ d, d.category = .consistency → P d) {items : List CollectionItem}
    (hitems : ∀ item ∈ items, item.fault? = none) (hs : ∀ d ∈ s.notes.diagnostics, P d)
    (h : steps ns define load items s = .ok s') : ∀ d ∈ s'.notes.diagnostics, P d :=
  steps_keep (P := fun s => ∀ d ∈ s.notes.diagnostics, P d)
    (fun item hitem _ _ hs h => step_named_reports hload hclash (hitems item hitem) hs h) hs h

theorem step_inList (hload : ItemStaysBelow load) (hpath : path ≠ "") {item : CollectionItem}
    (hitem : item.ListedAt path) (h : step ns define load item s = .ok s') :
    s'.notes.diagnostics.filter (inList path) =
      s.notes.diagnostics.filter (inList path) ++ item.fault?.toList := by
  rcases hitem with ⟨name, body, rfl⟩ | ⟨i, rfl⟩
  · have hbelow : Reports (fun d => Below (Path.child path name) d.path) (load name body _) :=
      ⟨fun hok => ((hload name body _).notes hok).diagnostics⟩
    obtain ⟨more, hmore, hall⟩ := step_reports hbelow (fun d hd _ => hd ▸ Below.refl _) h
    have hnone : more.filter (inList path) = [] := List.filter_eq_nil_iff.mpr fun d hd =>
      Bool.not_eq_true _ ▸ not_inList_child hpath (hall d hd)
    rw [hmore, List.filter_append, hnone]
    rfl
  · cases h
    have hin : inList path (unnamedAt path i) = true := inList_of_item rfl
    exact (List.filter_append _ _).trans (by rw [List.filter_singleton, hin]; rfl)

/-- Of all that a run of the loader reports in the list, there is one report for each item that has
no name, in the order of the items. -/
theorem steps_inList (hload : ItemStaysBelow load) (hpath : path ≠ "") {items : List CollectionItem}
    (hitems : ∀ item ∈ items, item.ListedAt path) (h : steps ns define load items s = .ok s') :
    s'.notes.diagnostics.filter (inList path) =
      s.notes.diagnostics.filter (inList path) ++ items.filterMap CollectionItem.fault? := by
  induction items generalizing s with
  | nil =>
      cases h
      exact (List.append_nil _).symm
  | cons item items ih =>
      obtain ⟨between, hstep, h⟩ := bind_eq_ok.mp h
      obtain ⟨hitem, hrest⟩ := List.forall_mem_cons.mp hitems
      rw [ih hrest h, step_inList hload hpath hitem hstep, List.append_assoc]
      cases hfault : item.fault? <;> simp [hfault]

end Declared

/-- The reports of the items that have no name. -/
def unnamedReports (path : String) (items : List Value) : List Diagnostic :=
  ((indexed items).filter fun p => (givenName? p.2).isNone).map fun p => unnamedAt path p.1

theorem declareAll_inList (hload : ItemStaysBelow load) (hpath : path ≠ "") {items : List Value}
    {t : Symbols} (h : declareAll ns define load (.list items) path t = .ok s) :
    s.notes.diagnostics.filter (inList path) = unnamedReports path items := by
  obtain ⟨⟨listed, notes⟩, hlisted, h⟩ := bind_eq_ok.mp h
  cases hlisted
  have hitems : ∀ item ∈ (indexed items).map (CollectionItem.ofListItem path),
      item.ListedAt path := by
    intro item hitem
    obtain ⟨p, -, rfl⟩ := List.mem_map.mp hitem
    exact CollectionItem.listedAt_ofListItem path p
  rw [Declared.steps_inList hload hpath hitems h, unnamedReports, List.filterMap_map,
    ← List.filterMap_eq_map, List.filterMap_filter]
  exact List.filterMap_congr fun p _ => CollectionItem.fault?_ofListItem path p

theorem declareAll_named_reports {P : Diagnostic → Prop}
    (hload : ∀ name body path, Reports P (load name body path))
    (hclash : ∀ d, d.category = .consistency → P d) {entries : Entries} {t : Symbols}
    (h : declareAll ns define load (.dict entries) path t = .ok s) :
    ∀ d ∈ s.notes.diagnostics, P d := by
  obtain ⟨⟨items, notes⟩, hitems, h⟩ := bind_eq_ok.mp h
  have hnotes : ∀ d ∈ notes.diagnostics, P d := CollectionItem.reports_all.all hitems
  obtain ⟨_, _, _, -, hpure, -⟩ := load_bind_eq_ok.mp hitems
  cases hpure
  refine Declared.steps_named_reports hload hclash (fun item hitem => ?_) hnotes h
  obtain ⟨e, -, rfl⟩ := List.mem_map.mp hitem
  rfl

end Collections

/-! ### Roles -/

namespace Security

theorem listedRole_eq {v : Value} {item : CollectionItem} {notes : Notes}
    (h : listedRole v = .ok (item, notes)) :
    item.ListedAt rolesPath ∧
      item.fault? = if (roleName? v).isNone then some (unnamedAt rolesPath 0) else none := by
  have hgiven := CollectionItem.fault?_ofListItem rolesPath (0, v)
  have hlisted := CollectionItem.listedAt_ofListItem rolesPath (0, v)
  unfold listedRole at h
  split at h
  · next name =>
      rw [roleName?]
      cases hempty : name.isEmpty
      · rw [hempty] at h
        cases h
        exact ⟨.inl ⟨name, _, rfl⟩, rfl⟩
      · rw [hempty] at h
        cases h
        exact ⟨hlisted, hgiven⟩
  · next key body =>
      rw [roleName?]
      split at h
      · next hkey =>
          cases h
          rw [if_pos hkey]
          exact ⟨hlisted, hgiven⟩
      · next hkey =>
          obtain ⟨_, _, _, -, h, -⟩ := load_bind_eq_ok.mp h
          cases h
          rw [if_neg hkey]
          exact ⟨.inl ⟨key.text, body, rfl⟩, rfl⟩
  · cases h
    rw [roleName?]
    · exact ⟨hlisted, hgiven⟩
    · assumption
    · assumption

theorem each_listedRole {items : List Value} {found : List CollectionItem} {notes : Notes}
    (h : each listedRole items = .ok (found, notes)) :
    (∀ item ∈ found, item.ListedAt rolesPath) ∧
      found.filterMap CollectionItem.fault? =
        List.replicate (items.countP fun v => (roleName? v).isNone) (unnamedAt rolesPath 0) := by
  induction items generalizing found notes with
  | nil =>
      cases h
      exact ⟨List.forall_mem_nil _, rfl⟩
  | cons v items ih =>
      obtain ⟨item, _, _, hitem, h, -⟩ := load_bind_eq_ok.mp h
      obtain ⟨rest, _, _, hrest, h, -⟩ := load_bind_eq_ok.mp h
      cases h
      obtain ⟨hlisted, hfault⟩ := listedRole_eq hitem
      obtain ⟨hall, hfaults⟩ := ih hrest
      refine ⟨List.forall_mem_cons.mpr ⟨hlisted, hall⟩, ?_⟩
      cases hname : (roleName? v).isNone <;>
        simp [hfault, hname, hfaults, List.replicate_succ]

theorem reports_roleItems {P : Diagnostic → Prop} {items : List Value} :
    Reports P (roleItems (.list items)) := by
  refine reports_each (fun v => ?_) items
  unfold listedRole
  split
  · exact reports_pure _
  · exact reports_ite (reports_pure _) ((reports_keysWritable _).next fun _ => reports_pure _)
  · exact reports_pure _

theorem loadPolicy_inList {entries : Entries} {roles : Named Role} {policy : SecurityPolicy}
    {notes : Notes} (h : loadPolicy entries roles = .ok (policy, notes)) :
    ∀ d ∈ notes.diagnostics, inList rolesPath d = false := by
  obtain ⟨permissions, first, second, hpermissions, haccess, hnotes, -⟩ := loadPolicy_cases h
  have hfirst : first.StandBelow "security.permissions" :=
    (below_loadListed (Below.refl _) fun _ => below_loadPermission (Below.refl _)).notes
      hpermissions
  have hsecond : second.StandBelow accessPath :=
    (below_loadListed (Below.refl _) fun _ => below_loadFieldAccess (Below.refl _)).notes haccess
  rw [hnotes]
  refine List.forall_mem_append.mpr ⟨fun d hd => ?_, fun d hd => ?_⟩
  · exact inList_eq_false (hfirst.diagnostics d hd) (by decide) (by decide)
  · exact inList_eq_false (hsecond.diagnostics d hd) (by decide) (by decide)

/-- What a list of roles cannot name is reported at its first index, once for each such item. -/
theorem load_inList {entries : Entries} {items : List Value} {t u : Symbols}
    {policy : Option SecurityPolicy} {notes : LayerNotes}
    (hroles : Entries.text? entries "roles" = some (.list items))
    (h : load (.dict entries) t = .ok (policy, notes, u)) :
    notes.diagnostics.filter (inList rolesPath) =
      List.replicate (items.countP fun v => (roleName? v).isNone) (unnamedAt rolesPath 0) := by
  obtain ⟨_, hmapping, h⟩ := bind_eq_ok.mp h
  cases hmapping
  obtain ⟨⟨found, first⟩, hfound, h⟩ := bind_eq_ok.mp h
  obtain ⟨declared, hsteps, h⟩ := bind_eq_ok.mp h
  obtain ⟨⟨policy, last⟩, hpolicy, h⟩ := bind_eq_ok.mp h
  cases h
  rw [Entries.field, hroles] at hfound
  obtain ⟨hlisted, hfaults⟩ := each_listedRole hfound
  have hfirst : first.diagnostics.filter (inList rolesPath) = [] :=
    List.filter_eq_nil_iff.mpr (reports_roleItems.all hfound)
  have hlast : last.diagnostics.filter (inList rolesPath) = [] :=
    List.filter_eq_nil_iff.mpr fun d hd => Bool.not_eq_true _ ▸ loadPolicy_inList hpolicy d hd
  have hdeclared := Declared.steps_inList below_loadRole (by decide) hlisted hsteps
  have hstart : ((Declared.start t : Declared Role).note first).notes.diagnostics =
    first.diagnostics := rfl
  rw [hstart, hfirst, hfaults, List.nil_append] at hdeclared
  exact (List.filter_append _ _).trans (by rw [hdeclared, hlast, List.append_nil])

end Security

/-! ### Layers -/

/-- The collections that a layer may give as a list, and where. -/
inductive ListsAt : Layer → Value → String → List Value → Prop
  | domain (items : List Value) : ListsAt .domain (.list items) "domain" items
  | types {entries : Entries} {items : List Value}
      (h : Entries.text? entries "types" = some (.list items)) :
      ListsAt .domain (.dict entries) "domain.types" items
  | entities {entries : Entries} {items : List Value}
      (h : Entries.text? entries "entities" = some (.list items)) :
      ListsAt .domain (.dict entries) "domain.entities" items
  | logic (items : List Value) : ListsAt .logic (.list items) "logic" items
  | operations {entries : Entries} {items : List Value}
      (h : Entries.text? entries "operations" = some (.list items)) :
      ListsAt .logic (.dict entries) "logic.operations" items
  | components (items : List Value) : ListsAt .components (.list items) "components" items
  | workflow (items : List Value) : ListsAt .workflow (.list items) "workflow" items
  | ui (items : List Value) : ListsAt .ui (.list items) "ui" items
  | pages {entries : Entries} {items : List Value}
      (h : Entries.text? entries "pages" = some (.list items)) :
      ListsAt .ui (.dict entries) "ui.pages" items
  | roles {entries : Entries} {items : List Value}
      (h : Entries.text? entries "roles" = some (.list items)) :
      ListsAt .security (.dict entries) "security.roles" items
  | infrastructure (items : List Value) :
      ListsAt .infrastructure (.list items) "infrastructure" items
  | integrations (items : List Value) : ListsAt .integrations (.list items) "integrations" items

/-- Nothing but its unnamed items is reported in the list. -/
def ToldAlone (path : String) (items : List Value) (ds : List Diagnostic) : Prop :=
  ds.filter (inList path) = unnamedReports path items

/-- Nothing else is loaded in the place of the list: beside a list of types, entities stand under a
key of their own. -/
def Separate (v : Value) (path : String) : Prop :=
  path = "domain.types" → ∃ entries, v = .dict entries ∧ Entries.has entries "entities" = true

/-- Each unnamed item is reported once, and no other item as one. -/
def ToldOnce (path : String) (items : List Value) (ds : List Diagnostic) : Prop :=
  ∀ i item, items[i]? = some item →
    ds.count (unnamedAt path i) = if (givenName? item).isNone then 1 else 0

section Told

variable {items : List Value} {ds : List Diagnostic}

theorem mem_unnamedReports {i : Nat} :
    unnamedAt path i ∈ unnamedReports path items ↔
      ∃ item, items[i]? = some item ∧ givenName? item = none := by
  constructor
  · intro h
    obtain ⟨⟨j, item⟩, hp, heq⟩ := List.mem_map.mp h
    obtain ⟨hp, hname⟩ := List.mem_filter.mp hp
    obtain rfl : j = i := Path.item_injective (congrArg Diagnostic.path heq)
    exact ⟨item, Load.mem_indexed_iff.mp hp, Option.isNone_iff_eq_none.mp hname⟩
  · rintro ⟨item, hitem, hname⟩
    have hp := Load.mem_indexed_iff.mpr hitem
    have hnone : (givenName? item).isNone = true := Option.isNone_iff_eq_none.mpr hname
    exact List.mem_map.mpr ⟨(i, item), List.mem_filter.mpr ⟨hp, hnone⟩, rfl⟩

theorem nodup_unnamedReports (path : String) (items : List Value) :
    (unnamedReports path items).Nodup := by
  have hindexes : (((indexed items).filter fun p => (givenName? p.2).isNone).map (·.1)).Nodup :=
    (Steps.nodup_indexed items).sublist (List.filter_sublist.map _)
  have hinjective : Function.Injective (unnamedAt path) := fun i j heq =>
    Path.item_injective (congrArg Diagnostic.path heq)
  have hmap := hindexes.map hinjective
  rwa [List.map_map] at hmap

theorem ToldAlone.once (h : ToldAlone path items ds) : ToldOnce path items ds := by
  intro i item hitem
  rw [← List.count_filter (p := inList path) (inList_of_item rfl), h,
    (nodup_unnamedReports path items).count]
  simp [mem_unnamedReports, hitem]

theorem ToldAlone.eq_of_path (h : ToldAlone path items ds) {d : Diagnostic} (hd : d ∈ ds) {i : Nat}
    (hpath : d.path = Path.item path i) : d = unnamedAt path i := by
  have hmem : d ∈ ds.filter (inList path) := List.mem_filter.mpr ⟨hd, inList_of_item hpath⟩
  rw [h] at hmem
  obtain ⟨⟨j, item⟩, -, rfl⟩ := List.mem_map.mp hmem
  obtain rfl : j = i := Path.item_injective hpath
  rfl

/-- What is reported elsewhere changes nothing. -/
theorem ToldAlone.among {before after : List Diagnostic} (h : ToldAlone path items ds)
    (hbefore : ∀ d ∈ before, inList path d = false) (hafter : ∀ d ∈ after, inList path d = false) :
    ToldAlone path items (before ++ ds ++ after) := by
  have hnone {more : List Diagnostic} (hmore : ∀ d ∈ more, inList path d = false) :
      more.filter (inList path) = [] :=
    List.filter_eq_nil_iff.mpr fun d hd => Bool.not_eq_true _ ▸ hmore d hd
  rw [ToldAlone, List.filter_append, List.filter_append, hnone hbefore, hnone hafter, h,
    List.nil_append, List.append_nil]

end Told

namespace Domain

variable {limit : Int} {v : Value} {t u : Symbols} {loaded : Option Loaded} {notes : LayerNotes}

theorem load_cases {s : Sections} (hs : sections? v = some s)
    (h : load limit v t = .ok (loaded, notes, u)) :
    ∃ types entities,
      declareAll .customType .customType (loadCustomType limit) s.types "domain.types" t =
        .ok types ∧
      declareAll .entity .entity (loadEntity limit) s.entities s.entitiesPath types.symbols =
        .ok entities ∧
      notes.diagnostics = types.notes.diagnostics ++ entities.notes.diagnostics := by
  rw [load, hs] at h
  obtain ⟨types, htypes, h⟩ := bind_eq_ok.mp h
  obtain ⟨entities, hentities, h⟩ := bind_eq_ok.mp h
  cases h
  exact ⟨types, entities, htypes, hentities, rfl⟩

theorem told_types {entries : Entries} {items : List Value}
    (htypes : Entries.text? entries "types" = some (.list items))
    (h : load limit (.dict entries) t = .ok (loaded, notes, u)) :
    ToldOnce "domain.types" items notes.diagnostics ∧
      (Entries.has entries "entities" = true →
        ToldAlone "domain.types" items notes.diagnostics) := by
  have hfield : Entries.field entries "types" = .list items := by rw [Entries.field, htypes]; rfl
  cases hentities : Entries.text? entries "entities" with
  | some inner =>
      have hs : sections? (.dict entries) = some ⟨.list items, inner, "domain.entities"⟩ := by
        rw [sections?, hentities, hfield]
      obtain ⟨types, others, hload, hothers, hnotes⟩ := load_cases hs h
      have hown : ToldAlone "domain.types" items types.notes.diagnostics :=
        declareAll_inList (below_loadCustomType limit) (by decide) hload
      have hbelow : others.notes.StandBelow "domain.entities" :=
        below_declareAll (below_loadEntity limit) (Below.refl _) hothers
      have halone : ToldAlone "domain.types" items notes.diagnostics := by
        rw [hnotes]
        exact hown.among (List.forall_mem_nil _) fun d hd =>
          inList_eq_false (hbelow.diagnostics d hd) (by decide) (by decide)
      exact ⟨halone.once, fun _ => halone⟩
  | none =>
      have hs : sections? (.dict entries) =
          some ⟨.list items, .dict (Entries.without entries ["types"]), "domain"⟩ := by
        rw [sections?, hentities, hfield]
      obtain ⟨types, others, hload, hothers, hnotes⟩ := load_cases hs h
      have hown : ToldAlone "domain.types" items types.notes.diagnostics :=
        declareAll_inList (below_loadCustomType limit) (by decide) hload
      have hopens := declareAll_named_reports (opens_loadEntity limit) (fun d hd hsyntax => by
        rw [hd] at hsyntax
        cases hsyntax) hothers
      have hnone (i : Nat) : others.notes.diagnostics.count (unnamedAt "domain.types" i) = 0 := by
        refine List.count_eq_zero.mpr fun hmem => ?_
        obtain ⟨text, htext, hprefix⟩ := hopens _ hmem rfl
        have hother : ∀ text ∈ syntaxOpenings, ¬ text.toList <+: unnamedText.toList := by decide
        exact hother text htext hprefix
      refine ⟨fun i item hitem => ?_, fun hhas => ?_⟩
      · rw [hnotes, List.count_append, hnone, Nat.add_zero]
        exact hown.once i item hitem
      · rw [Entries.has, hentities] at hhas
        cases hhas

theorem told_entities {types : Value} {items : List Value}
    (hs : sections? v = some ⟨types, .list items, path⟩)
    (hpath : path = "domain" ∨ path = "domain.entities")
    (h : load limit v t = .ok (loaded, notes, u)) : ToldAlone path items notes.diagnostics := by
  obtain ⟨types, entities, htypes, hload, hnotes⟩ := load_cases hs h
  have hne : path ≠ "" := by
    rcases hpath with rfl | rfl <;> decide
  have hown : ToldAlone path items entities.notes.diagnostics :=
    declareAll_inList (below_loadEntity limit) hne hload
  have hbelow := (below_declareAll (below_loadCustomType limit) (Below.refl _) htypes).diagnostics
  have hbefore : ∀ d ∈ types.notes.diagnostics, inList path d = false := by
    intro d hd
    rcases hpath with rfl | rfl <;>
      exact inList_eq_false (hbelow d hd) (by decide) (by decide)
  have halone := hown.among hbefore (List.forall_mem_nil _)
  rw [List.append_nil] at halone
  rwa [hnotes]

end Domain

namespace Layer

variable {limit : Int} {layer : Layer} {v : Value} {items : List Value} {t u : Symbols}
  {r : LayerResult}

theorem told_collected {α : Type} {data : Named α → LayerData} {d : Except Failure (Declared α)}
    (hd : ∀ s, d = .ok s → ToldAlone path items s.notes.diagnostics)
    (h : collected layer data d = .ok (r, u)) : ToldAlone path items r.notes.diagnostics := by
  obtain ⟨s, hs, h⟩ := bind_eq_ok.mp h
  cases h
  exact hd s hs

theorem domain_cases (h : load limit .domain v t = .ok (r, u)) (hv : v.isNull = false) :
    ∃ loaded, Domain.load limit v t = .ok (loaded, r.notes, u) := by
  rw [load, hv] at h
  obtain ⟨⟨loaded, notes, symbols⟩, hload, h⟩ := bind_eq_ok.mp h
  cases h
  exact ⟨loaded, hload⟩

theorem told_load (h : ListsAt layer v path items) (hlayer : layer ≠ .security)
    (hload : load limit layer v t = .ok (r, u)) :
    ToldOnce path items r.notes.diagnostics ∧
      (Separate v path → ToldAlone path items r.notes.diagnostics) := by
  have hboth (halone : ToldAlone path items r.notes.diagnostics) :
      ToldOnce path items r.notes.diagnostics ∧
        (Separate v path → ToldAlone path items r.notes.diagnostics) :=
    ⟨halone.once, fun _ => halone⟩
  cases h with
  | domain =>
      obtain ⟨loaded, hdomain⟩ := domain_cases hload rfl
      exact hboth (Domain.told_entities rfl (.inl rfl) hdomain)
  | @types entries items htypes =>
      obtain ⟨loaded, hdomain⟩ := domain_cases hload rfl
      obtain ⟨honce, halone⟩ := Domain.told_types htypes hdomain
      refine ⟨honce, fun hseparate => ?_⟩
      obtain ⟨_, heq, hhas⟩ := hseparate rfl
      cases heq
      exact halone hhas
  | @entities entries items hentities =>
      obtain ⟨loaded, hdomain⟩ := domain_cases hload rfl
      have hs : Domain.sections? (.dict entries) =
          some ⟨Entries.field entries "types", .list items, "domain.entities"⟩ := by
        rw [Domain.sections?, hentities]
      exact hboth (Domain.told_entities hs (.inr rfl) hdomain)
  | roles => exact absurd rfl hlayer
  | logic items =>
      have hcollection : unwrapped (.list items) "logic" "operations" = (.list items, "logic") := rfl
      refine hboth (told_collected (fun s hs => ?_) hload)
      rw [Logic.load, hcollection] at hs
      exact declareAll_inList (Logic.below_loadOperation limit) (by decide) hs
  | @operations entries items hitems =>
      have hcollection : unwrapped (.dict entries) "logic" "operations" =
          (.list items, "logic.operations") := by
        rw [unwrapped, hitems]
        rfl
      refine hboth (told_collected (fun s hs => ?_) hload)
      rw [Logic.load, hcollection] at hs
      exact declareAll_inList (Logic.below_loadOperation limit) (by decide) hs
  | components =>
      exact hboth (told_collected
        (fun _ => declareAll_inList Components.below_loadComponent (by decide)) hload)
  | workflow =>
      exact hboth (told_collected
        (fun _ => declareAll_inList Workflows.below_loadWorkflow (by decide)) hload)
  | ui items =>
      have hcollection : unwrapped (.list items) "ui" "pages" = (.list items, "ui") := rfl
      refine hboth (told_collected (fun s hs => ?_) hload)
      rw [Pages.load, hcollection] at hs
      exact declareAll_inList Pages.below_loadPage (by decide) hs
  | @pages entries items hitems =>
      have hcollection : unwrapped (.dict entries) "ui" "pages" = (.list items, "ui.pages") := by
        rw [unwrapped, hitems]
        rfl
      refine hboth (told_collected (fun s hs => ?_) hload)
      rw [Pages.load, hcollection] at hs
      exact declareAll_inList Pages.below_loadPage (by decide) hs
  | infrastructure =>
      exact hboth (told_collected
        (fun _ => declareAll_inList Infrastructure.below_loadResource (by decide)) hload)
  | integrations =>
      exact hboth (told_collected
        (fun _ => declareAll_inList Integrations.below_loadIntegration (by decide)) hload)

/-- Each item that a list does not name is reported once, at its own index; items that cannot be
named as roles are all reported at the first index. -/
theorem load_unnamed (limit : Int) (h : ListsAt layer v path items) (t : Symbols) :
    (t.frozen = false → v.Short → Orderly layer v → ∃ r u, load limit layer v t = .ok (r, u)) ∧
    (∀ i j, Path.item path i = Path.item path j → i = j) ∧
    ∀ r u, load limit layer v t = .ok (r, u) →
      (layer ≠ .security →
        (∀ i item, items[i]? = some item →
          r.notes.diagnostics.count (unnamedAt path i) =
            if (givenName? item).isNone then 1 else 0) ∧
        (Separate v path → ∀ d ∈ r.notes.diagnostics, ∀ i, d.path = Path.item path i →
          d = unnamedAt path i)) ∧
      (layer = .security →
        r.notes.diagnostics.count (unnamedAt path 0) =
            items.countP (fun item => (roleName? item).isNone) ∧
        ∀ d ∈ r.notes.diagnostics, ∀ i, d.path = Path.item path i → d = unnamedAt path 0) := by
  refine ⟨fun hfrozen hshort horderly => ?_, fun _ _ => Path.item_injective, fun r u hload => ?_⟩
  · obtain ⟨r, u, hload, -⟩ := (mild_load hfrozen hshort horderly).runs
    exact ⟨r, u, hload⟩
  constructor
  · intro hlayer
    obtain ⟨honce, halone⟩ := told_load h hlayer hload
    exact ⟨honce, fun hseparate d hd i hpath => (halone hseparate).eq_of_path hd hpath⟩
  · rintro rfl
    cases h with
    | roles hroles =>
        obtain ⟨⟨policy, notes, symbols⟩, hsecurity, hload⟩ := bind_eq_ok.mp hload
        cases hload
        have hreports := Security.load_inList hroles hsecurity
        have hin : inList Security.rolesPath (unnamedAt Security.rolesPath 0) = true :=
          inList_of_item rfl
        constructor
        · exact (List.count_filter hin).symm.trans (hreports ▸ List.count_replicate_self)
        · intro d hd i hpath
          have hmem : d ∈ notes.diagnostics.filter (inList Security.rolesPath) :=
            List.mem_filter.mpr ⟨hd, inList_of_item hpath⟩
          rw [hreports] at hmem
          exact List.eq_of_mem_replicate hmem

theorem load_unnamed_resources :
    ∃ r u, load 20 .infrastructure
        (.list [.null, .dict [(.str "id", .str "queue")], .dict [(.str "name", .str "")]]) .empty =
          .ok (r, u) ∧
      r.notes.diagnostics.count (unnamedAt "infrastructure" 0) = 1 ∧
      r.notes.diagnostics.count (unnamedAt "infrastructure" 1) = 0 ∧
      r.notes.diagnostics.count (unnamedAt "infrastructure" 2) = 1 := by
  obtain ⟨hruns, -, hreports⟩ := load_unnamed 20 (.infrastructure
    [.null, .dict [(.str "id", .str "queue")], .dict [(.str "name", .str "")]]) .empty
  have htext (s : String) (h : s.toList.length ≤ Text.maxIntegerDigits) : (Scalar.str s).Short :=
    .str (Text.not_hasLongNumber h)
  have hitem (key name : String) (hkey : key.toList.length ≤ Text.maxIntegerDigits)
      (hname : name.toList.length ≤ Text.maxIntegerDigits) :
      (Value.dict [(.str key, .str name)]).Short :=
    .dict (by simpa using htext key hkey) (by simpa using .scalar (htext name hname))
  have hshort := Value.Short.list (List.forall_mem_cons.mpr ⟨.scalar .null, List.forall_mem_cons.mpr
    ⟨hitem "id" "queue" (by decide) (by decide), List.forall_mem_singleton.mpr
      (hitem "name" "" (by decide) (by decide))⟩⟩)
  obtain ⟨r, u, hload⟩ := hruns rfl hshort trivial
  obtain ⟨hcount, -⟩ := (hreports r u hload).1 (by decide)
  exact ⟨r, u, hload, hcount 0 _ rfl, hcount 1 _ rfl, hcount 2 _ rfl⟩

/-- A role that cannot be named is reported at the index of one that can. -/
theorem load_roles_misplaced :
    ¬ ∀ (items : List Value) (r : LayerResult) (u : Symbols),
      load 20 .security (.dict [(.str "roles", .list items)]) .empty = .ok (r, u) →
      ∀ i item, items[i]? = some item → roleName? item = none →
        r.notes.diagnostics.count (unnamedAt "security.roles" i) = 1 := by
  intro hall
  obtain ⟨policy, notes, u, hrun⟩ : ∃ policy notes u,
      Security.load (.dict [(.str "roles", .list [.str "admin", .int 5])]) .empty =
        .ok (policy, notes, u) := ⟨_, _, _, rfl⟩
  have hroles : Entries.text? [(.str "roles", .list [.str "admin", .int 5])] "roles" =
      some (.list [.str "admin", .int 5]) := rfl
  have hreports := Security.load_inList hroles hrun
  have hone := hall _ _ u (bind_eq_ok.mpr ⟨_, hrun, rfl⟩) 1 (.int 5) rfl rfl
  rw [← List.count_filter (p := inList Security.rolesPath) (inList_of_item rfl), hreports] at hone
  exact absurd hone (by decide)

end Layer

end AppSpec
