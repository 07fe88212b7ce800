import AppSpec.Proofs.Layer.LayerBelow
import AppSpec.Proofs.Layer.StepReferences
import AppSpec.Proofs.Path

/-!
The rules for access to fields: each rule that is accepted defers one reference to its field, at a
path that nothing else of the document has.
-/

namespace AppSpec

open AppSpec.Path (Below)
open Load

/-! ### The paths of rules -/

namespace Security

def accessPath : String := "security.field_access"

/-- Where the rule at an index names its field. -/
def fieldPath (i : Nat) : String := Path.child (Path.item accessPath i) "field"

/-- A path at which a rule names its roles. -/
def IsRolePath (i : Nat) (path : String) : Prop :=
  ∃ word ∈ ["read", "write"], path = Path.child (Path.item accessPath i) word ∨
    ∃ k, path = Path.item (Path.child (Path.item accessPath i) word) k

theorem plain_word {s : String} (h : s ∈ ["field", "read", "write"]) : Path.Plain (.name s) := by
  have hwords : ["field", "read", "write"].all
      (fun w => w != "" && w.toList.all fun c => !Path.isCut c) = true := by
    decide +kernel
  have hs := List.all_eq_true.mp hwords s h
  rw [Bool.and_eq_true, bne_iff_ne, List.all_eq_true] at hs
  exact ⟨hs.1, fun c hc => by simpa using hs.2 c hc⟩

theorem plain_index (i : Nat) : Path.Plain (.index i) := Int.natCast_nonneg i

theorem fieldPath_inj {i j : Nat} (h : fieldPath i = fieldPath j) : i = j := by
  have hplain (i : Nat) : ∀ s ∈ [Segment.index i, .name "field"], Path.Plain s := by
    simpa using ⟨plain_index i, plain_word (by simp)⟩
  have hparts := @Path.joinAll_inj accessPath _ _ (hplain i) (hplain j) h
  simpa using hparts

/-- The roles of a rule stand next to its field. -/
theorem IsRolePath.ne {path : String} {i : Nat} (h : IsRolePath i path) (j : Nat) :
    path ≠ fieldPath j := by
  obtain ⟨word, hword, h⟩ := h
  have hplain : Path.Plain (.name word) := plain_word (List.mem_cons_of_mem _ hword)
  have hne : word ≠ "field" := by
    rintro rfl
    simp at hword
  have hfield : ∀ s ∈ [Segment.index j, .name "field"], Path.Plain s := by
    simpa using ⟨plain_index j, plain_word (by simp)⟩
  rintro rfl
  rcases h with h | ⟨k, h⟩
  · have hrole : ∀ s ∈ [Segment.index i, .name word], Path.Plain s := by
      simpa using ⟨plain_index i, hplain⟩
    have hparts := @Path.joinAll_inj accessPath _ _ hfield hrole h
    simp at hparts
    exact hne hparts.2.symm
  · have hrole : ∀ s ∈ [Segment.index i, .name word, .index k], Path.Plain s := by
      simpa using ⟨plain_index i, hplain, plain_index k⟩
    have hparts := @Path.joinAll_inj accessPath _ _ hfield hrole h
    simp at hparts

/-- A path that a rule's field stands below leads to the rules or on to them. -/
theorem fieldPath_comparable {base : String} {i : Nat} (h : Below base (fieldPath i)) :
    base.toList <+: accessPath.toList ∨ accessPath.toList <+: base.toList :=
  List.prefix_or_prefix_of_prefix h.isPrefix
    (((Below.refl accessPath).item i).child "field").isPrefix

end Security

/-! ### One after the other -/

namespace Load

variable {α β : Type} {notes : Notes}

/-- What each of the values is loaded to, and what comes up with it. -/
theorem each_eq_ok {f : α → Load β} {as : List α} {bs : List β} (h : each f as = .ok (bs, notes)) :
    ∃ found : List (α × β × Notes), found.map (·.1) = as ∧ (∀ p ∈ found, f p.1 = .ok p.2) ∧
      found.map (·.2.1) = bs ∧ notes.references = found.flatMap (·.2.2.references) ∧
      notes.diagnostics = found.flatMap (·.2.2.diagnostics) := by
  induction as generalizing bs notes with
  | nil =>
      cases h
      exact ⟨[], rfl, nofun, rfl, rfl, rfl⟩
  | cons a as ih =>
      obtain ⟨b, first, _, hb, hmore, rfl⟩ := load_bind_eq_ok.mp h
      obtain ⟨bs, rest, _, hbs, hend, rfl⟩ := load_bind_eq_ok.mp hmore
      cases hend
      obtain ⟨found, rfl, hfound, rfl, hreferences, hdiagnostics⟩ := ih hbs
      refine ⟨(a, b, first) :: found, rfl, List.forall_mem_cons.mpr ⟨hb, hfound⟩, rfl, ?_, ?_⟩
      · rw [List.flatMap_cons, ← hreferences]
        exact congrArg (first.references ++ ·) (List.append_nil _)
      · rw [List.flatMap_cons, ← hdiagnostics]
        exact congrArg (first.diagnostics ++ ·) (List.append_nil _)

theorem silent_each {f : α → Load β} {as : List α} (hf : ∀ a, (f a).Silent) :
    (each f as).Silent := by
  intro bs notes h
  obtain ⟨found, -, hfound, -, hreferences, -⟩ := each_eq_ok h
  rw [hreferences, List.flatMap_eq_nil_iff]
  exact fun p hp => hf p.1 _ _ (hfound p hp)

theorem silent_nameItem (path : String) (p : Nat × Value) : (nameItem path p).Silent := by
  have hbad (path : String) : (do
      report (.schemaError path ("expected a name, got " ++ (← shown p.2)))
      return none : Load (Option (String × String))).Silent :=
    (silent_shown _).bind fun _ => (silent_reportAll _).bind fun _ => silent_pure _
  unfold nameItem
  dsimp only
  split
  · split
    · exact hbad _
    · exact silent_pure _
  · exact hbad _

theorem silent_names (v : Value) (path : String) : (names v path).Silent := by
  unfold names
  split
  · exact silent_pure _
  · exact silent_pure _
  · exact (silent_each (silent_nameItem path)).bind fun _ => silent_pure _
  · exact (silent_reportAll _).bind fun _ => silent_pure _

/-- The references of a field's names stand at the field's path, or at an item of it. -/
theorem paths_deferField {entries : Entries} {path field : String} {kind : ReferenceKind}
    {space : Namespace} {names : List String}
    (h : deferField entries path field kind space = .ok (names, notes)) :
    ∀ x ∈ notes.references, x.path = Path.child path field ∨
      ∃ k, x.path = Path.item (Path.child path field) k := by
  intro x hx
  obtain ⟨found, first, rest, hnames, heach, rfl⟩ := load_bind_eq_ok.mp h
  obtain ⟨deferred, rfl, hdeferred, -, hreferences, -⟩ := each_eq_ok heach
  rcases List.mem_append.mp hx with hx | hx
  · rw [silent_names _ _ _ _ hnames] at hx
    cases hx
  · rw [hreferences] at hx
    obtain ⟨⟨p, name, more⟩, hp, hx⟩ := List.mem_flatMap.mp hx
    have hdefer : (do
        defer p.2 p.1 kind [space]
        return p.1 : Load String) = .ok (name, more) := hdeferred _ hp
    cases hdefer
    cases List.mem_singleton.mp hx
    exact paths_names hnames p (List.mem_map_of_mem hp)

end Load

namespace Security

/-- The reference of the rule at an index. -/
def fieldReference (i : Nat) (a : FieldAccess) : DeferredReference :=
  ⟨fieldPath i, a.entity ++ "." ++ a.field, [.entity], .field⟩

/-- A rule that is accepted at an index of the list. -/
def Accepts (v : Value) (i : Nat) (a : FieldAccess) : Prop :=
  ∃ items item notes, v = .list items ∧ items[i]? = some item ∧
    loadFieldAccess accessPath (i, item) = .ok (some a, notes)

theorem Accepts.unique {v : Value} {i : Nat} {a b : FieldAccess} (ha : Accepts v i a)
    (hb : Accepts v i b) : a = b := by
  obtain ⟨items, item, notes, rfl, hitem, hload⟩ := ha
  obtain ⟨items', item', notes', heq, hitem', hload'⟩ := hb
  cases heq
  cases hitem.symm.trans hitem'
  cases hload.symm.trans hload'
  rfl

/-- Nothing of this is an error of a reference. -/
def notReference : Permitted where
  fault d := d.category ≠ .reference
  reference _ := True
  uses := True
  opened ho _ _ _ := by
    have hnone : ∀ o ∈ Opening.all, o.category ≠ .reference := by decide +kernel
    exact hnone _ ho
  byKind _ := trivial

theorem references_loadFieldAccess {i : Nat} {v : Value} {a? : Option FieldAccess} {notes : Notes}
    (h : loadFieldAccess accessPath (i, v) = .ok (a?, notes)) :
    a? = none ∧ notes.references = [] ∨ ∃ a roles, a? = some a ∧
      notes.references = fieldReference i a :: roles ∧ ∀ x ∈ roles, IsRolePath i x.path := by
  unfold loadFieldAccess at h
  dsimp only at h
  split at h
  · next entries =>
      obtain ⟨problems, first, _, hproblems, hrule, rfl⟩ := load_bind_eq_ok.mp h
      have hsilent : first.references = [] := silent_lift _ _ _ hproblems
      split at hrule
      · obtain ⟨_, _, _, hdefer, hroles, rfl⟩ := load_bind_eq_ok.mp hrule
        obtain ⟨read, second, _, hread, hwritten, rfl⟩ := load_bind_eq_ok.mp hroles
        obtain ⟨write, third, _, hwrite, hend, rfl⟩ := load_bind_eq_ok.mp hwritten
        cases hend
        cases hdefer
        refine .inr ⟨_, second.references ++ third.references, rfl, ?_, fun x hx => ?_⟩
        · show first.references ++ (_ :: (second.references ++ (third.references ++ []))) = _
          rw [hsilent, List.append_nil]
          rfl
        · rcases List.mem_append.mp hx with hx | hx
          · exact ⟨"read", by simp, paths_deferField hread x hx⟩
          · exact ⟨"write", by simp, paths_deferField hwrite x hx⟩
      · obtain ⟨_, _, _, hreport, hend, rfl⟩ := load_bind_eq_ok.mp hrule
        cases hend
        cases hreport
        refine .inl ⟨rfl, ?_⟩
        show first.references ++ [] = []
        rw [hsilent, List.append_nil]
  · obtain ⟨_, _, _, hreport, hend, rfl⟩ := load_bind_eq_ok.mp h
    cases hend
    cases hreport
    exact .inl ⟨rfl, rfl⟩

theorem category_loadFieldAccess {path : String} {p : Nat × Value} :
    Behaves False notReference (loadFieldAccess path p) := by
  unfold loadFieldAccess
  dsimp only
  split
  · refine (behaves_lift False.elim).bind fun problems _ hproblems => ?_
    refine behaves_ite (fun _ => ?_) fun _ => ?_
    · refine (behaves_defer trivial).next fun _ => ?_
      refine (behaves_deferField False.elim rfl (by decide)).next fun readRoles => ?_
      exact (behaves_deferField False.elim rfl (by decide)).next fun writeRoles => behaves_pure _
    · refine (behaves_reportAll (fault_misshapen (lift_eq_ok hproblems))).next fun _ => ?_
      exact behaves_pure none
  · exact behaves_reject (by nofun) none

/-- What is left of the rules of a document: each one accepted is kept with its reference, and no
other reference and no error of a reference stands where a rule names its field. -/
structure LoadedRules (v : Value) (rules : List FieldAccess) (diagnostics : List Diagnostic)
    (references : List DeferredReference) : Prop where
  accepted : ∃ accepted : List (Nat × FieldAccess), accepted.map (·.2) = rules ∧
    (accepted.map (·.1)).Pairwise (· < ·) ∧ ∀ p ∈ accepted, Accepts v p.1 p.2
  noted : ∀ i a, Accepts v i a → fieldReference i a ∈ references
  only : ∀ i, ∀ x ∈ references, x.path = fieldPath i → ∃ a, Accepts v i a ∧ x = fieldReference i a
  silent : ∀ d ∈ diagnostics, d.category = .reference → ∀ i, d.path ≠ fieldPath i

theorem pairwise_indexed (items : List Value) : ((indexed items).map (·.1)).Pairwise (· < ·) := by
  have hindexes : (indexed items).map (·.1) = items.zipIdx.map (·.2) := by
    rw [indexed, List.map_map]
    rfl
  rw [hindexes, List.zipIdx_map_snd]
  exact List.pairwise_lt_range'

/-- The rules among the items that were loaded, each under its index. -/
def acceptedAmong (found : List ((Nat × Value) × Option FieldAccess × Notes)) :
    List (Nat × FieldAccess) := found.filterMap fun p => p.2.1.map (p.1.1, ·)

section Found

variable {found : List ((Nat × Value) × Option FieldAccess × Notes)}

theorem map_acceptedAmong (found : List ((Nat × Value) × Option FieldAccess × Notes)) :
    (acceptedAmong found).map (·.2) = (found.map (·.2.1)).filterMap id := by
  rw [acceptedAmong, List.map_filterMap, List.filterMap_map]
  refine List.filterMap_congr fun p _ => ?_
  obtain ⟨_, a?, _⟩ := p
  cases a? <;> rfl

theorem pairwise_acceptedAmong (h : ((found.map (·.1)).map (·.1)).Pairwise (· < ·)) :
    ((acceptedAmong found).map (·.1)).Pairwise (· < ·) := by
  rw [List.pairwise_map, List.pairwise_map] at h
  rw [acceptedAmong, List.pairwise_map, List.pairwise_filterMap]
  refine h.imp fun {p q} hlt b hb b' hb' => ?_
  obtain ⟨_, -, rfl⟩ := Option.map_eq_some_iff.mp hb
  obtain ⟨_, -, rfl⟩ := Option.map_eq_some_iff.mp hb'
  exact hlt

theorem exists_found {p : Nat × FieldAccess} (h : p ∈ acceptedAmong found) :
    ∃ item notes, ((p.1, item), some p.2, notes) ∈ found := by
  obtain ⟨⟨⟨i, item⟩, a?, notes⟩, hmem, hp⟩ := List.mem_filterMap.mp h
  obtain ⟨a, rfl, rfl⟩ := Option.map_eq_some_iff.mp hp
  exact ⟨item, notes, hmem⟩

end Found

theorem loadedRules_items {items : List Value} {rules : List FieldAccess} {notes : Notes}
    (h : eachSome (loadFieldAccess accessPath) (indexed items) = .ok (rules, notes)) :
    LoadedRules (.list items) rules notes.diagnostics notes.references := by
  obtain ⟨loaded, first, _, hloaded, hend, rfl⟩ := load_bind_eq_ok.mp h
  cases hend
  obtain ⟨found, hitems, hfound, rfl, hreferences, hdiagnostics⟩ := each_eq_ok hloaded
  have hrule {i : Nat} {item : Value} {a? : Option FieldAccess} {notes : Notes}
      (hp : ((i, item), a?, notes) ∈ found) : items[i]? = some item ∧
        loadFieldAccess accessPath (i, item) = .ok (a?, notes) :=
    ⟨mem_indexed_iff.mp (hitems ▸ List.mem_map_of_mem hp), hfound _ hp⟩
  have hnotes : (first ++ {} : Notes).references = first.references ∧
      (first ++ {} : Notes).diagnostics = first.diagnostics :=
    ⟨List.append_nil _, List.append_nil _⟩
  rw [hnotes.1, hnotes.2, hreferences, hdiagnostics]
  have hindexes := pairwise_acceptedAmong (hitems ▸ pairwise_indexed items)
  refine ⟨⟨acceptedAmong found, map_acceptedAmong found, hindexes, fun p hp => ?_⟩, ?_, ?_, ?_⟩
  · obtain ⟨item, notes, hmem⟩ := exists_found hp
    obtain ⟨hitem, hload⟩ := hrule hmem
    exact ⟨items, item, notes, rfl, hitem, hload⟩
  · rintro i a ⟨_, item, notes, heq, hitem, hload⟩
    cases heq
    -- The rule is among those that were loaded, and is loaded to one thing only.
    have hmem : (i, item) ∈ found.map (·.1) := hitems ▸ mem_indexed_iff.mpr hitem
    obtain ⟨⟨q, a?, more⟩, hp, rfl⟩ := List.mem_map.mp hmem
    cases hload.symm.trans (hfound _ hp)
    refine List.mem_flatMap.mpr ⟨_, hp, ?_⟩
    obtain ⟨hnone, -⟩ | ⟨b, roles, heq, hreferences, -⟩ := references_loadFieldAccess hload
    · cases hnone
    · cases heq
      exact hreferences ▸ List.mem_cons_self
  · intro i x hx hpath
    obtain ⟨⟨⟨j, item⟩, a?, notes⟩, hmem, hx⟩ := List.mem_flatMap.mp hx
    obtain ⟨hitem, hload⟩ := hrule hmem
    obtain ⟨-, hnone⟩ | ⟨a, roles, rfl, hreferences, hroles⟩ := references_loadFieldAccess hload
    · rw [hnone] at hx
      cases hx
    · rw [hreferences] at hx
      rcases List.mem_cons.mp hx with rfl | hx
      · obtain rfl : j = i := fieldPath_inj hpath
        exact ⟨a, ⟨items, item, notes, rfl, hitem, hload⟩, rfl⟩
      · exact absurd hpath ((hroles x hx).ne i)
  · intro d hd hcategory
    obtain ⟨⟨⟨j, item⟩, a?, notes⟩, hmem, hd⟩ := List.mem_flatMap.mp hd
    exact absurd hcategory (category_loadFieldAccess.faults (hrule hmem).2 d hd)

/-- The path is none at which a rule names its field. -/
def Elsewhere (path : String) : Prop := ∀ i, path ≠ fieldPath i

theorem elsewhere_of_below {base path : String} (h : Below base path)
    (hbase : ¬ (base.toList <+: accessPath.toList ∨ accessPath.toList <+: base.toList)) :
    Elsewhere path := by
  rintro i rfl
  exact hbase (fieldPath_comparable h)

section Rules

variable {v : Value} {rules : List FieldAccess} {diagnostics diagnostics' : List Diagnostic}
  {references references' : List DeferredReference}

theorem LoadedRules.widen (h : LoadedRules v rules diagnostics references)
    (hdiagnostics : ∀ d ∈ diagnostics', d ∈ diagnostics ∨ Elsewhere d.path)
    (hsubset : references ⊆ references')
    (hreferences : ∀ x ∈ references', x ∈ references ∨ Elsewhere x.path) :
    LoadedRules v rules diagnostics' references' where
  accepted := h.accepted
  noted i a ha := hsubset (h.noted i a ha)
  only i x hx hpath := (hreferences x hx).elim (h.only i x · hpath) fun hx => absurd hpath (hx i)
  silent d hd hcategory := (hdiagnostics d hd).elim (h.silent d · hcategory) id

theorem loadedRules_none (h : ∀ items, v ≠ .list items)
    (hdiagnostics : ∀ d ∈ diagnostics, d.category = .reference → Elsewhere d.path)
    (hreferences : ∀ x ∈ references, Elsewhere x.path) :
    LoadedRules v [] diagnostics references := by
  refine ⟨⟨[], rfl, .nil, nofun⟩, ?_, fun i x hx hpath => absurd hpath (hreferences x hx i),
    hdiagnostics⟩
  rintro i a ⟨items, -, -, rfl, -⟩
  exact absurd rfl (h items)

theorem loadedRules_listed {problem : String} {notes : Notes}
    (h : loadListed loadFieldAccess v accessPath problem = .ok (rules, notes)) :
    LoadedRules v rules notes.diagnostics notes.references := by
  unfold loadListed at h
  split at h
  · cases h
    exact loadedRules_none nofun (List.forall_mem_nil _) (List.forall_mem_nil _)
  · exact loadedRules_items h
  · next hnone hlist =>
      obtain ⟨_, _, _, hreport, hend, rfl⟩ := load_bind_eq_ok.mp h
      cases hend
      cases hreport
      refine loadedRules_none hlist (fun d hd hcategory => ?_) (List.forall_mem_nil _)
      cases List.mem_singleton.mp hd
      cases hcategory

theorem loadPolicy_cases {entries : Entries} {roles : Named Role} {policy : SecurityPolicy}
    {notes : Notes} (h : loadPolicy entries roles = .ok (policy, notes)) :
    ∃ permissions first second,
      loadListed loadPermission (Entries.field entries "permissions") "security.permissions"
        "permissions must be a list" = .ok (permissions, first) ∧
      loadListed loadFieldAccess (Entries.field entries "field_access") accessPath
        "field_access must be a list" = .ok (policy.fieldAccess, second) ∧
      notes.diagnostics = first.diagnostics ++ second.diagnostics ∧
      notes.references = first.references ++ second.references := by
  obtain ⟨permissions, first, _, hpermissions, hrest, rfl⟩ := load_bind_eq_ok.mp h
  obtain ⟨fieldAccess, second, third, haccess, hend, rfl⟩ := load_bind_eq_ok.mp hrest
  have hend : policy.fieldAccess = fieldAccess ∧ third = {} := by
    dsimp only at hend
    split at hend
    · obtain ⟨_, fourth, _, hlift, hpolicy, rfl⟩ := load_bind_eq_ok.mp hend
      cases hpolicy
      rw [lift_eq_ok hlift] at hlift
      cases hlift
      exact ⟨rfl, rfl⟩
    · obtain ⟨_, _, _, hpure, hpolicy, rfl⟩ := load_bind_eq_ok.mp hend
      cases hpolicy
      cases hpure
      exact ⟨rfl, rfl⟩
  obtain ⟨rfl, rfl⟩ := hend
  refine ⟨permissions, first, second, hpermissions, haccess, ?_, ?_⟩
  · exact congrArg (first.diagnostics ++ ·) (List.append_nil _)
  · exact congrArg (first.references ++ ·) (List.append_nil _)

theorem loadedRules_loadPolicy {entries : Entries} {roles : Named Role} {policy : SecurityPolicy}
    {notes : Notes} (h : loadPolicy entries roles = .ok (policy, notes)) :
    LoadedRules (Entries.field entries "field_access") policy.fieldAccess notes.diagnostics
      notes.references := by
  obtain ⟨permissions, first, second, hpermissions, haccess, hdiagnostics, hreferences⟩ :=
    loadPolicy_cases h
  have hbelow : Below "security.permissions" "security.permissions" := Below.refl _
  have hfirst : first.StandBelow "security.permissions" :=
    (below_loadListed hbelow fun p => below_loadPermission hbelow).notes hpermissions
  have helsewhere {path : String} (h : Below "security.permissions" path) : Elsewhere path :=
    elsewhere_of_below h (by decide)
  rw [hdiagnostics, hreferences]
  refine (loadedRules_listed haccess).widen (fun d hd => ?_) (List.subset_append_right _ _)
    fun x hx => ?_
  · exact (List.mem_append.mp hd).symm.imp_right fun hd => helsewhere (hfirst.diagnostics d hd)
  · exact (List.mem_append.mp hx).symm.imp_right fun hx => helsewhere (hfirst.references x hx)

end Rules

end Security

/-- The value under a name, null where the value is no mapping or has none. -/
def Value.entry (v : Value) (name : String) : Value :=
  match v with
  | .dict entries => Entries.field entries name
  | _ => .null

theorem Value.entry_ne_list {v : Value} (h : ∀ entries, v ≠ .dict entries) (name : String)
    (items : List Value) : v.entry name ≠ .list items := by
  unfold entry
  split
  · next entries => exact absurd rfl (h entries)
  · exact Value.noConfusion

/-- The rules for access to fields that a layer leaves. -/
def LayerData.rules : LayerData → List FieldAccess
  | .security policy => policy.fieldAccess
  | _ => []

namespace Layer

open Security

variable {limit : Int} {v : Value} {t u : Symbols} {r : LayerResult}

theorem loadedRules_security (h : load limit .security v t = .ok (r, u)) :
    LoadedRules (v.entry "field_access") r.data.rules r.notes.diagnostics r.notes.references := by
  rw [load] at h
  split at h
  · next hnull =>
      cases h
      have hvalue : ∀ entries, v ≠ .dict entries := by
        rintro entries rfl
        cases hnull
      exact loadedRules_none (Value.entry_ne_list hvalue "field_access") (List.forall_mem_nil _)
        (List.forall_mem_nil _)
  · obtain ⟨⟨loaded, notes, symbols⟩, hloaded, h⟩ := bind_eq_ok.mp h
    cases h
    obtain ⟨⟨entries?, first⟩, hsection, hloaded⟩ := bind_eq_ok.mp hloaded
    unfold mapping? at hsection
    split at hsection
    · next entries =>
        cases hsection
        obtain ⟨⟨items, more⟩, hitems, hloaded⟩ := bind_eq_ok.mp hloaded
        obtain ⟨roles, hroles, hloaded⟩ := bind_eq_ok.mp hloaded
        obtain ⟨⟨policy, last⟩, hpolicy, hloaded⟩ := bind_eq_ok.mp hloaded
        cases hloaded
        have hbelow := below_roles hitems hroles
        have helsewhere {path : String} (h : Below rolesPath path) : Elsewhere path :=
          elsewhere_of_below h (by decide)
        refine (loadedRules_loadPolicy hpolicy).widen (fun d hd => ?_)
          (List.subset_append_right _ _) fun x hx => ?_
        · exact (List.mem_append.mp hd).symm.imp_right fun hd =>
            helsewhere (hbelow.diagnostics d hd)
        · exact (List.mem_append.mp hx).symm.imp_right fun hx =>
            helsewhere (hbelow.references x hx)
    · next hother =>
        obtain ⟨_, _, _, hreport, hend, rfl⟩ := load_bind_eq_ok.mp hsection
        cases hend
        cases hreport
        cases hloaded
        refine loadedRules_none ?_ (fun d hd hcategory => ?_) (List.forall_mem_nil _)
        · exact Value.entry_ne_list hother "field_access"
        · cases List.mem_singleton.mp hd
          cases hcategory

end Layer

end AppSpec
