import AppSpec.Proofs.Layer.Covers

/-!
The fields of a loaded entity: their names are distinct, and the references of their types are
deferred at the paths of the fields.
-/

namespace AppSpec

namespace Load

variable {α β : Type} {notes : Notes}

theorem exists_of_mem_each {f : α → Load β} {as : List α} {bs : List β}
    (h : each f as = .ok (bs, notes)) {b : β} (hb : b ∈ bs) :
    ∃ a ∈ as, ∃ first, f a = .ok (b, first) ∧ first.references ⊆ notes.references := by
  induction as generalizing bs notes with
  | nil =>
      cases h
      cases hb
  | cons a as ih =>
      obtain ⟨c, first, _, hc, hmore, rfl⟩ := load_bind_eq_ok.mp h
      obtain ⟨cs, rest, _, hcs, hend, rfl⟩ := load_bind_eq_ok.mp hmore
      cases hend
      rcases List.mem_cons.mp hb with rfl | hb
      · exact ⟨a, List.mem_cons_self, first, hc, Notes.subset_append_left _ _⟩
      · obtain ⟨a', ha', second, hsecond, hsubset⟩ := ih hcs hb
        refine ⟨a', List.mem_cons_of_mem _ ha', second, hsecond, fun r hr => ?_⟩
        exact Notes.subset_append_right _ _ (Notes.subset_append_left _ _ (hsubset hr))

theorem references_typeText {limit : Int} {text path : String} {τ : TypeExpr}
    (h : typeText limit text path = .ok (some τ, notes)) : τ.references path ⊆ notes.references := by
  obtain ⟨reading, _, _, -, hread, rfl⟩ := load_bind_eq_ok.mp h
  obtain ⟨_, _, _, -, hrest, rfl⟩ := load_bind_eq_ok.mp hread
  split at hrest
  · cases hrest
  · obtain ⟨_, _, _, hdefer, hend, rfl⟩ := load_bind_eq_ok.mp hrest
    cases hend
    cases hdefer
    intro r hr
    exact Notes.subset_append_right _ _
      (Notes.subset_append_right _ _ (Notes.subset_append_left _ _ hr))

end Load

namespace TypeExpr

/-- The references of the type are deferred at the path, unless it is written in place as a mapping:
then those of each field are deferred at a path of their own. -/
def Deferred (τ : TypeExpr) (path : String) (notes : Notes) : Prop :=
  τ.references path ⊆ notes.references ∨ ∃ fields, τ = .object fields []

theorem Deferred.mono {τ : TypeExpr} {path : String} {notes more : Notes} (h : τ.Deferred path notes)
    (hsubset : notes.references ⊆ more.references) : τ.Deferred path more :=
  h.imp_left fun hdeferred => List.Subset.trans hdeferred hsubset

end TypeExpr

open Load (load_bind_eq_ok exists_of_mem_each references_typeText)

theorem Load.deferred_typeOf {limit : Int} {v : Value} {path : String} {τ : TypeExpr}
    {raw : Option String} {notes : Notes}
    (h : Load.typeOf limit v path = .ok ((some τ, raw), notes)) : τ.Deferred path notes := by
  unfold Load.typeOf at h
  split at h
  · obtain ⟨read, first, _, hread, hend, rfl⟩ := load_bind_eq_ok.mp h
    cases hend
    exact .inl (List.Subset.trans (references_typeText hread) (Notes.subset_append_left _ _))
  · obtain ⟨_, _, _, -, hfields, rfl⟩ := load_bind_eq_ok.mp h
    obtain ⟨fields, _, _, -, hend, rfl⟩ := load_bind_eq_ok.mp hfields
    cases hend
    exact .inr ⟨_, rfl⟩
  · obtain ⟨_, _, _, -, hend, rfl⟩ := load_bind_eq_ok.mp h
    cases hend

namespace Domain

variable {limit : Int} {notes : Notes}

structure FieldLoaded (path : String) (notes : Notes) (field : String × EntityField) : Prop where
  named : field.2.name = field.1
  deferred : ∀ τ, field.2.type = some τ → τ.Deferred (Path.child path field.1) notes

theorem FieldLoaded.mono {path : String} {more : Notes} {field : String × EntityField}
    (h : FieldLoaded path notes field) (hsubset : notes.references ⊆ more.references) :
    FieldLoaded path more field :=
  ⟨h.named, fun τ hτ => (h.deferred τ hτ).mono hsubset⟩

/-- The path that the paths of an entity's fields extend. -/
def fieldsPath (body : Value) (path : String) : String :=
  match body with
  | .dict entries =>
      match Entries.field entries "fields" with
      | .dict _ => Path.child path "fields"
      | _ => path
  | _ => path

/-- The fields under the path have names of their own and were loaded. -/
structure FieldsLoaded (path : String) (fields : Named EntityField) (notes : Notes) : Prop where
  nodup : fields.keys.Nodup
  loaded : ∀ field ∈ fields, FieldLoaded path notes field

theorem fieldLoaded_loadField {path : String} {e : Scalar × Value} {field : String × EntityField}
    (h : loadField limit path e = .ok (field, notes)) : FieldLoaded path notes field := by
  obtain ⟨⟨type, raw⟩, _, _, htype, hend, rfl⟩ := load_bind_eq_ok.mp h
  cases hend
  refine ⟨rfl, fun τ hτ => ?_⟩
  cases hτ
  exact (Load.deferred_typeOf htype).mono (Notes.subset_append_left _ _)

theorem fieldsLoaded_loadFields {entries : Entries} {path : String} {fields : Named EntityField}
    (h : loadFields limit entries path = .ok (fields, notes)) : FieldsLoaded path fields notes := by
  obtain ⟨_, _, _, -, heach, rfl⟩ := load_bind_eq_ok.mp h
  obtain ⟨loaded, _, _, hloaded, hend, rfl⟩ := load_bind_eq_ok.mp heach
  cases hend
  have hnil : (Named.keys ([] : Named EntityField)).Nodup := List.nodup_nil
  refine ⟨Named.nodup_keys_setAll hnil loaded, fun field hfield => ?_⟩
  obtain ⟨e, -, first, hfirst, hsubset⟩ := exists_of_mem_each hloaded (Named.mem_setAll_nil hfield)
  refine (fieldLoaded_loadField hfirst).mono fun r hr => ?_
  exact Notes.subset_append_right _ _ (Notes.subset_append_left _ _ (hsubset hr))

theorem FieldsLoaded.mono {path : String} {fields : Named EntityField} {more : Notes}
    (h : FieldsLoaded path fields notes) (hsubset : notes.references ⊆ more.references) :
    FieldsLoaded path fields more :=
  ⟨h.nodup, fun field hfield => (h.loaded field hfield).mono hsubset⟩

theorem fieldsPath_of_bodyEntries {body : Value} {path problem : String} {entries : Entries}
    (h : bodyEntries? body path problem = .ok (some entries, notes)) : fieldsPath body path =
      match Entries.field entries "fields" with
      | .dict _ => Path.child path "fields"
      | _ => path := by
  unfold bodyEntries? at h
  split at h
  · cases h
    rfl
  · cases h
    rfl
  · obtain ⟨_, _, _, -, hend, -⟩ := load_bind_eq_ok.mp h
    cases hend

theorem entity_of_finished {name path : String} {description : Option String} {validation : Value}
    {fields : Named EntityField} {e : Entity}
    (h : finishEntity name path description validation fields = .ok (some e, notes)) :
    e.name = name ∧ e.fields = fields := by
  unfold finishEntity at h
  dsimp only at h
  split at h
  · obtain ⟨_, _, _, -, hrules, -⟩ := load_bind_eq_ok.mp h
    obtain ⟨_, _, _, -, hend, -⟩ := load_bind_eq_ok.mp hrules
    cases hend
    exact ⟨rfl, rfl⟩
  · obtain ⟨_, _, _, -, hend, -⟩ := load_bind_eq_ok.mp h
    cases hend
    exact ⟨rfl, rfl⟩

theorem fieldsLoaded_loadEntity {name path : String} {body : Value} {e : Entity}
    (h : loadEntity limit name body path = .ok (some e, notes)) :
    e.name = name ∧ FieldsLoaded (fieldsPath body path) e.fields notes := by
  rw [loadEntity_eq] at h
  obtain ⟨entries?, _, _, hbody, hentity, rfl⟩ := load_bind_eq_ok.mp h
  cases entries? with
  | none => cases hentity
  | some entries =>
      have hplace := fieldsPath_of_bodyEntries hbody
      dsimp only [loadBody] at hentity
      split at hentity
      · next hwritten =>
          rw [hwritten] at hplace
          obtain ⟨_, _, _, -, hshaped, rfl⟩ := load_bind_eq_ok.mp hentity
          obtain ⟨_, _, _, -, hdescribed, rfl⟩ := load_bind_eq_ok.mp hshaped
          obtain ⟨fields, _, _, hfields, hend, rfl⟩ := load_bind_eq_ok.mp hdescribed
          obtain ⟨hname, heq⟩ := entity_of_finished hend
          rw [hplace, heq]
          refine ⟨hname, (fieldsLoaded_loadFields hfields).mono fun r hr => ?_⟩
          exact Notes.subset_append_right _ _ (Notes.subset_append_right _ _
            (Notes.subset_append_right _ _ (Notes.subset_append_left _ _ hr)))
      · next hother =>
          obtain ⟨fields, _, _, hfields, hend, rfl⟩ := load_bind_eq_ok.mp hentity
          obtain ⟨hname, heq⟩ := entity_of_finished hend
          have hpath : fieldsPath body path = path := by
            rw [hplace]
            split
            · next written => exact (hother _ written).elim
            · rfl
          rw [hpath, heq]
          refine ⟨hname, (fieldsLoaded_loadFields hfields).mono fun r hr => ?_⟩
          exact Notes.subset_append_right _ _ (Notes.subset_append_left _ _ hr)

end Domain

end AppSpec
