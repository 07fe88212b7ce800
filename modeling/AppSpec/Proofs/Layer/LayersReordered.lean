import AppSpec.Proofs.Layer.Items
import AppSpec.Proofs.Layer.LayerBehaves
import AppSpec.Proofs.Layer.Reordered

/-!
Layers whose declarations stand in another order. Loaded next to the same symbols, they leave behind
the same but for the order.
-/

namespace AppSpec

open Value (Permuted Reordered under)

/-- Pages may be in another order only where that is allowed. -/
inductive LayerData.Alike (F : Prop) : LayerData → LayerData → Prop
  | same (data : LayerData) : Alike F data data
  | domain {l l' : Domain.Loaded} (htypes : l.customTypes.Perm l'.customTypes)
      (hentities : l.entities.Reordered Entity.name l'.entities) : Alike F (.domain l) (.domain l')
  | logic {os os' : Named Operation} (h : os.Perm os') : Alike F (.logic os) (.logic os')
  | components {cs cs' : Named Component} (h : cs.Reordered Component.id cs') :
      Alike F (.components cs) (.components cs')
  | ui {ps ps' : Named Page} (hF : F) (h : ps.Perm ps') : Alike F (.ui ps) (.ui ps')
  | security {p p' : SecurityPolicy} (hroles : p.roles.Reordered Role.name p'.roles)
      (hrest : p' = { p with roles := p'.roles }) : Alike F (.security p) (.security p')

structure LayerNotes.Alike (limit : Int) (n n' : LayerNotes) : Prop where
  diagnostics : Shuffled (ItemFault limit) n.diagnostics n'.diagnostics
  references : Shuffled DeferredReference.ByKind n.references n'.references
  paths : ∀ name, n.paths.get? name = n'.paths.get? name

structure LayerResult.Alike (F : Prop) (limit : Int) (r r' : LayerResult) : Prop where
  layer : r.layer = r'.layer
  data : LayerData.Alike F r.data r'.data
  notes : LayerNotes.Alike limit r.notes r'.notes

variable {α : Type} {E : String → Prop} {F uses : Prop} {limit : Int} {layer : Layer}
  {v v' : Value} {t t' : Symbols}

theorem LayerNotes.alike_same (n : LayerNotes) : LayerNotes.Alike limit n n :=
  ⟨.same _, .same _, fun _ => rfl⟩

theorem Declared.Alike.layerNotes {s s' : Declared α}
    (h : Declared.Alike E F (.item limit uses) s s') :
    LayerNotes.Alike limit (.ofNotes s.notes s.paths) (.ofNotes s'.notes s'.paths) :=
  ⟨h.diagnostics, h.references, h.paths.get⟩

namespace Layer

/-- The two values are loaded to the same but for the order, next to symbols that are the same but
for the order. -/
def Matches (E : String → Prop) (F : Prop) (limit : Int) (layer : Layer) (v v' : Value) : Prop :=
  ∀ (t t' : Symbols) (r : LayerResult) (u : Symbols), t.Alike E t' →
    load limit layer v t = .ok (r, u) →
      ∃ r' u', load limit layer v' t' = .ok (r', u') ∧ r.Alike F limit r' ∧ u.Alike E u'

/-- What an absent layer leaves behind does not depend on the symbols. -/
theorem matches_of_present (hnull : v.isNull = v'.isNull)
    (h : ∀ {t t' : Symbols} {r u}, t.Alike E t' → loadPresent limit layer v t = .ok (r, u) →
      ∃ r' u', loadPresent limit layer v' t' = .ok (r', u') ∧ r.Alike F limit r' ∧ u.Alike E u') :
    Matches E F limit layer v v' := by
  intro t t' r u ht hload
  rw [load] at hload
  rw [load, ← hnull]
  split at hload
  · next habsent =>
      cases hload
      rw [if_pos habsent]
      exact ⟨_, _, rfl, ⟨rfl, .same _, LayerNotes.alike_same _⟩, ht⟩
  · next hpresent =>
      rw [if_neg hpresent]
      exact h ht hload

theorem isNull_reordered {below : String → Value → Value → Prop} (h : Reordered below v v') :
    v.isNull = v'.isNull := by
  cases h with
  | same => rfl
  | mapping => rfl

theorem collected_alike {data : Named α → LayerData} {d d' : Except Failure (Declared α)}
    {r : LayerResult} {u : Symbols} (h : collected layer data d = .ok (r, u))
    (hd : ∀ s, d = .ok s → ∃ s', d' = .ok s' ∧ LayerData.Alike F (data s.items) (data s'.items) ∧
      LayerNotes.Alike limit (.ofNotes s.notes s.paths) (.ofNotes s'.notes s'.paths) ∧
      s.symbols.Alike E s'.symbols) :
    ∃ r' u', collected layer data d' = .ok (r', u') ∧ r.Alike F limit r' ∧ u.Alike E u' := by
  obtain ⟨s, hs, h⟩ := bind_eq_ok.mp h
  cases h
  obtain ⟨s', hs', hdata, hnotes, hsymbols⟩ := hd s hs
  exact ⟨_, _, bind_eq_ok.mpr ⟨s', hs', rfl⟩, ⟨rfl, hdata, hnotes⟩, hsymbols⟩

/-! ### Layers that are the same -/

theorem matches_collected {data : Named α → LayerData} {ns : Namespace} {define : α → Definition}
    {load : String → Value → String → Load (Option α)} {v w : Value} {path : String}
    (hlayer : ∀ t, loadPresent limit layer v t =
      collected layer data (declareAll ns define load w path t)) (hns : ns ≠ .error) :
    Matches E F limit layer v v := by
  refine matches_of_present rfl fun {t t' r u} ht h => ?_
  rw [hlayer] at h ⊢
  refine collected_alike h fun s hs => ?_
  obtain ⟨s', hs', halike⟩ : ∃ s', declareAll ns define load w path t' = .ok s' ∧
      Declared.Alike E False (.item limit True) s s' := declareAll_same ht hns hs
  have hitems : s.items = s'.items := halike.fixed.resolve_left id
  exact ⟨s', hs', hitems ▸ .same _, halike.layerNotes, halike.symbols⟩

theorem matches_project (v : Value) : Matches E F limit .project v v := by
  refine matches_of_present rfl fun ht h => ?_
  obtain ⟨⟨info, notes⟩, hinfo, h⟩ := bind_eq_ok.mp h
  cases h
  exact ⟨_, _, bind_eq_ok.mpr ⟨_, hinfo, rfl⟩, ⟨rfl, .same _, LayerNotes.alike_same _⟩, ht⟩

theorem matches_mapping (v : Value) : Matches E F limit .mapping v v := by
  refine matches_of_present rfl fun ht h => ?_
  obtain ⟨⟨loaded, notes⟩, hload, h⟩ := bind_eq_ok.mp h
  cases loaded with
  | none =>
      cases h
      exact ⟨_, _, bind_eq_ok.mpr ⟨_, hload, rfl⟩, ⟨rfl, .same _, LayerNotes.alike_same _⟩, ht⟩
  | some m =>
      cases h
      exact ⟨_, _, bind_eq_ok.mpr ⟨_, hload, rfl⟩, ⟨rfl, .same _, LayerNotes.alike_same _⟩, ht⟩

/-! ### Reordered layers -/

theorem matches_components (h : Permuted v v') : Matches E F limit .components v v' := by
  refine matches_of_present (isNull_reordered h) fun {t t' r u} ht hload => ?_
  have hload : collected .components .components (Components.load v t) = .ok (r, u) := hload
  refine collected_alike hload fun s hs => ?_
  obtain ⟨s', hs', halike⟩ : ∃ s', Components.load v' t' = .ok s' ∧
      Declared.Alike E True (.item limit False) s s' :=
    declareAll_reordered limit ht (by nofun) h
      (fun _ _ _ => Components.behaves_loadComponent nofun nofun) hs
  have hkept : s.Kept Components.loadComponent := kept_declareAll hs
  exact ⟨s', hs', .components (hkept.reordered Components.id_loadComponent halike.items),
    halike.layerNotes, halike.symbols⟩

theorem load_ui (v : Value) (t : Symbols) :
    Pages.load v t = declareAll .page .page Pages.loadPage (unwrapped v "ui" "pages").1
      (unwrapped v "ui" "pages").2 t := rfl

theorem matches_ui (hF : F) (h : Reordered (under [("pages", Permuted)]) v v') :
    Matches E F limit .ui v v' := by
  obtain ⟨hitems, hpath⟩ := unwrapped_reordered "ui" "pages" h
  refine matches_of_present (isNull_reordered h) fun {t t' r u} ht hload => ?_
  have hload : collected .ui .ui (Pages.load v t) = .ok (r, u) := hload
  refine collected_alike hload fun s hs => ?_
  rw [load_ui, hpath] at hs
  obtain ⟨s', hs', halike⟩ := declareAll_reordered limit ht (by nofun) hitems
    (fun _ _ _ => Pages.behaves_loadPage nofun nofun) hs
  exact ⟨s', hs', .ui hF halike.items.toPerm, halike.layerNotes, halike.symbols⟩

/-! ### The domain -/

theorem sections_reordered (h : Reordered (under [("types", Permuted), ("entities", Permuted)]) v v')
    {s : Domain.Sections} (hs : Domain.sections? v = some s) :
    ∃ s', Domain.sections? v' = some s' ∧ Permuted s.types s'.types ∧
      Permuted s.entities s'.entities ∧ s.entitiesPath = s'.entitiesPath := by
  rcases h.cases with rfl | ⟨entries, entries', rfl, rfl, h⟩
  · exact ⟨s, hs, .same _, .same _, rfl⟩
  have hrefl : ∀ key v, under [("types", Permuted), ("entities", Permuted)] key v v :=
    Value.under_refl (by simpa using Value.Reordered.same)
  have htypes : Permuted (Entries.field entries "types") (Entries.field entries' "types") :=
    h.field hrefl "types"
  have hentities := h.rel_text? hrefl "entities"
  rw [Domain.sections?] at hs ⊢
  generalize hinner : Entries.text? entries "entities" = inner at hs hentities
  generalize Entries.text? entries' "entities" = inner' at hentities ⊢
  cases hentities with
  | some hentities =>
      cases hs
      exact ⟨_, rfl, htypes, hentities, rfl⟩
  | none =>
      cases hs
      refine ⟨_, rfl, htypes, ?_, rfl⟩
      refine h.without ["types"] fun key v v' htypes hpresent hunder => ?_
      refine Value.under_of_not_mem (fun hmem => ?_) hunder
      rcases List.mem_pair.mp hmem with rfl | rfl
      · exact htypes List.mem_cons_self
      · rw [hinner] at hpresent
        cases hpresent

theorem matches_domain (h : Reordered (under [("types", Permuted), ("entities", Permuted)]) v v') :
    Matches E F limit .domain v v' := by
  refine matches_of_present (isNull_reordered h) fun {t t' r u} ht hload => ?_
  suffices hdomain : ∀ {loaded notes u}, Domain.load limit v t = .ok (loaded, notes, u) →
      ∃ loaded' notes' u', Domain.load limit v' t' = .ok (loaded', notes', u') ∧
        LayerData.Alike F ((loaded.map .domain).getD .nothing) ((loaded'.map .domain).getD .nothing) ∧
        LayerNotes.Alike limit notes notes' ∧ u.Alike E u' by
    obtain ⟨⟨loaded, notes, u⟩, hload, hr⟩ := bind_eq_ok.mp hload
    cases hr
    obtain ⟨loaded', notes', u', hload', hdata, hnotes, hu⟩ := hdomain hload
    exact ⟨_, _, bind_eq_ok.mpr ⟨_, hload', rfl⟩, ⟨rfl, hdata, hnotes⟩, hu⟩
  intro loaded notes u hload
  rw [Domain.load] at hload ⊢
  cases hs : Domain.sections? v with
  | none =>
      rcases h.cases with rfl | ⟨entries, entries', rfl, rfl, h⟩
      · rw [hs] at hload ⊢
        cases hload
        exact ⟨_, _, _, rfl, .same _, LayerNotes.alike_same _, ht⟩
      · rw [Domain.sections?] at hs
        split at hs <;> cases hs
  | some s =>
      obtain ⟨s', hs', htypes, hentities, hpath⟩ := sections_reordered h hs
      rw [hs] at hload
      rw [hs']
      dsimp only
      rw [← hpath]
      obtain ⟨types, hloadTypes, hload⟩ := bind_eq_ok.mp hload
      obtain ⟨types', hloadTypes', htypes⟩ := declareAll_reordered limit ht (by decide) htypes
        (fun _ _ _ => Domain.behaves_loadCustomType (by simp)) hloadTypes
      obtain ⟨entities, hloadEntities, hload⟩ := bind_eq_ok.mp hload
      obtain ⟨entities', hloadEntities', hentities⟩ := declareAll_reordered limit htypes.symbols
        (by decide) hentities (fun _ _ _ => Domain.behaves_loadEntity (by simp)) hloadEntities
      cases hload
      refine ⟨_, _, _, bind_eq_ok.mpr ⟨_, hloadTypes', bind_eq_ok.mpr ⟨_, hloadEntities', rfl⟩⟩, ?_, ?_,
        hentities.symbols⟩
      · exact .domain htypes.items.toPerm
          ((kept_declareAll hloadEntities).reordered (Domain.name_loadEntity limit) hentities.items)
      · exact ⟨htypes.diagnostics.append hentities.diagnostics,
          htypes.references.append hentities.references, (htypes.paths.setAll hentities.paths).get⟩

/-! ### Security -/

theorem roleItems_permuted (h : Permuted v v') {items : List CollectionItem} {notes : Notes}
    (hitems : Security.roleItems v = .ok (items, notes)) :
    ∃ items', Security.roleItems v' = .ok (items', notes) ∧
      (items = items' ∨ items.Perm items' ∧ items.Pairwise CollectionItem.Distinct) := by
  rcases h.cases with rfl | ⟨xs, ys, rfl, rfl, -, -⟩
  · exact ⟨items, hitems, .inl rfl⟩
  · exact CollectionItem.all_permuted h hitems

theorem loadPolicy_roles_irrelevant {entries : Entries} {roles : Named Role} {p : SecurityPolicy}
    {notes : Notes} (h : Security.loadPolicy entries roles = .ok (p, notes)) (roles' : Named Role) :
    Security.loadPolicy entries roles' = .ok ({ p with roles := roles' }, notes) := by
  rw [Security.loadPolicy] at h ⊢
  obtain ⟨permissions, _, _, hpermissions, hrest, rfl⟩ := Load.load_bind_eq_ok.mp h
  refine Load.load_bind_eq_ok.mpr ⟨_, _, _, hpermissions, ?_, rfl⟩
  obtain ⟨fieldAccess, _, _, hfieldAccess, hlast, rfl⟩ := Load.load_bind_eq_ok.mp hrest
  refine Load.load_bind_eq_ok.mpr ⟨_, _, _, hfieldAccess, ?_, rfl⟩
  dsimp only at hlast ⊢
  split at hlast
  · obtain ⟨settings, _, _, hsettings, hpolicy, rfl⟩ := Load.load_bind_eq_ok.mp hlast
    cases hpolicy
    exact Load.load_bind_eq_ok.mpr ⟨settings, _, _, hsettings, rfl, rfl⟩
  · obtain ⟨settings, _, _, hsettings, hpolicy, rfl⟩ := Load.load_bind_eq_ok.mp hlast
    cases hpolicy
    exact Load.load_bind_eq_ok.mpr ⟨settings, _, _, hsettings, rfl, rfl⟩

theorem loadPolicy_reordered {entries entries' : Entries}
    (h : Reordered (under [("roles", Permuted)]) (.dict entries) (.dict entries'))
    {roles : Named Role} {p : SecurityPolicy} {notes : Notes}
    (hload : Security.loadPolicy entries roles = .ok (p, notes)) (roles' : Named Role) :
    Security.loadPolicy entries' roles' = .ok ({ p with roles := roles' }, notes) := by
  have hrefl : ∀ key v, under [("roles", Permuted)] key v v :=
    Value.under_refl (by simpa using Value.Reordered.same)
  have hpermissions : Entries.field entries "permissions" = Entries.field entries' "permissions" :=
    h.field hrefl "permissions"
  have hfieldAccess : Entries.field entries "field_access" = Entries.field entries' "field_access" :=
    h.field hrefl "field_access"
  have hauthentication :
      Entries.field entries "authentication" = Entries.field entries' "authentication" :=
    h.field hrefl "authentication"
  rw [← loadPolicy_roles_irrelevant hload roles', Security.loadPolicy, Security.loadPolicy,
    hpermissions, hfieldAccess, hauthentication]

/-- What loading the security layer leaves behind, where it is a mapping. -/
theorem load_security_dict {entries : Entries} {t : Symbols} {x : Option SecurityPolicy}
    {notes : LayerNotes} {u : Symbols} :
    Security.load (.dict entries) t = .ok (x, notes, u) ↔
      ∃ items first s p more,
        Security.roleItems (Entries.field entries "roles") = .ok (items, first) ∧
        Declared.steps .role .role Security.loadRole items ((Declared.start t).note first) = .ok s ∧
        Security.loadPolicy entries s.items = .ok (p, more) ∧
        some p = x ∧ .ofNotes (s.notes ++ more) s.paths = notes ∧ s.symbols = u := by
  constructor
  · intro h
    obtain ⟨⟨entries?, _⟩, hentries, h⟩ := bind_eq_ok.mp h
    cases hentries
    obtain ⟨⟨items, first⟩, hitems, h⟩ := bind_eq_ok.mp h
    obtain ⟨s, hs, h⟩ := bind_eq_ok.mp h
    obtain ⟨⟨p, more⟩, hp, h⟩ := bind_eq_ok.mp h
    cases h
    exact ⟨items, first, s, p, more, hitems, hs, hp, rfl, rfl, rfl⟩
  · rintro ⟨items, first, s, p, more, hitems, hs, hp, rfl, rfl, rfl⟩
    exact bind_eq_ok.mpr ⟨_, rfl, bind_eq_ok.mpr ⟨_, hitems, bind_eq_ok.mpr ⟨_, hs,
      bind_eq_ok.mpr ⟨_, hp, rfl⟩⟩⟩⟩

theorem matches_security_dict {entries entries' : Entries}
    (h : Reordered (under [("roles", Permuted)]) (.dict entries) (.dict entries')) :
    Matches E F limit .security (.dict entries) (.dict entries') := by
  refine matches_of_present rfl fun {t t' r u} ht hload => ?_
  obtain ⟨⟨x, notes, _⟩, hload, hr⟩ := bind_eq_ok.mp hload
  cases hr
  obtain ⟨items, first, s, p, more, hitems, hs, hp, rfl, rfl, rfl⟩ := load_security_dict.mp hload
  have hrefl : ∀ key v, under [("roles", Permuted)] key v v :=
    Value.under_refl (by simpa using Value.Reordered.same)
  have hroles : Permuted (Entries.field entries "roles") (Entries.field entries' "roles") :=
    h.field hrefl "roles"
  obtain ⟨items', hitems', hreordered⟩ := roleItems_permuted hroles hitems
  have hbehaves (name : String) (body : Value) (path : String) :
      Load.Behaves False (.item limit False) (Security.loadRole name body path) :=
    Security.behaves_loadRole nofun nofun
  obtain ⟨s', hs', halike⟩ := (Declared.alike_start ht first).steps_reordered (by nofun) hreordered
    (CollectionItem.usesApart_of_behaves id hbehaves items) (Security.fault_roleItems hitems) hbehaves hs
  have hload' := load_security_dict.mpr ⟨items', first, s', _, more, hitems', hs',
    loadPolicy_reordered h hp s'.items, rfl, rfl, rfl⟩
  have hkept : s.Kept Security.loadRole := (Declared.kept_start t first).steps hs
  refine ⟨_, _, bind_eq_ok.mpr ⟨_, hload', rfl⟩, ⟨rfl, .security ?_ rfl, ?_⟩, halike.symbols⟩
  · rw [Security.loadPolicy_roles hp]
    exact hkept.reordered Security.name_loadRole halike.items
  · exact ⟨halike.diagnostics.append (.same _), halike.references.append (.same _), halike.paths.get⟩

theorem matches_security_other {v : Value} (hv : ∀ entries : Entries, v ≠ .dict entries) :
    Matches E F limit .security v v := by
  refine matches_of_present rfl fun {t t' r u} ht hload => ?_
  have hmapping : Load.mapping? v "security" "security section" =
      .ok (none, { diagnostics := [.syntaxError "security"
        ("security section must be a mapping, got " ++ v.kindName)] }) := by
    cases v with
    | dict entries => exact absurd rfl (hv entries)
    | _ => rfl
  obtain ⟨⟨x, notes, _⟩, hload, hr⟩ := bind_eq_ok.mp hload
  cases hr
  rw [Security.load, hmapping] at hload
  cases hload
  refine ⟨_, _, bind_eq_ok.mpr ⟨(none, _, t'), ?_, rfl⟩, ⟨rfl, .same _, LayerNotes.alike_same _⟩, ht⟩
  rw [Security.load, hmapping]
  rfl

theorem matches_security (h : Reordered (under [("roles", Permuted)]) v v') :
    Matches E F limit .security v v' := by
  rcases h.cases with rfl | ⟨entries, entries', rfl, rfl, h⟩
  · cases v with
    | dict entries => exact matches_security_dict (.same _)
    | _ => exact matches_security_other fun _ h => by cases h
  · exact matches_security_dict h

/-! ### All layers -/

theorem matches_same (layer : Layer) (v : Value) : Matches E F limit layer v v := by
  cases layer with
  | project => exact matches_project v
  | domain => exact matches_domain (.same v)
  | logic => exact matches_collected (fun _ => rfl) (by nofun)
  | components => exact matches_components (.same v)
  | workflow => exact matches_collected (fun _ => rfl) (by nofun)
  | ui => exact matches_collected (fun _ => rfl) (by nofun)
  | security => exact matches_security (.same v)
  | infrastructure => exact matches_collected (fun _ => rfl) (by nofun)
  | integrations => exact matches_collected (fun _ => rfl) (by nofun)
  | mapping => exact matches_mapping v

end Layer

end AppSpec
