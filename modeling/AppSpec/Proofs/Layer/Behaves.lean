import AppSpec.Layer.Collection
import AppSpec.Proofs.Layer.Deferral
import AppSpec.Proofs.Layer.ItemFault
import AppSpec.Proofs.Value.Short

/-!
What loaders do at large: whether they come to a result, and what they may report and defer on the
way.
-/

namespace AppSpec

def ReferenceKind.spaces : ReferenceKind → List Namespace
  | .type => [.entity, .customType]
  | .relation => [.entity]
  | .modifies => [.entity]
  | .error => [.error]
  | .call => [.operation]
  | .onError => [.operation]
  | .onTimeout => [.operation]
  | .responsibility => [.operation]
  | .dependency => [.component]
  | .resource => [.resource]
  | .role => [.role]
  | .inherits => [.role]
  | .action => [.operation]
  | .display => [.entity]
  | .field => [.entity]
  | .mappingKey => [.operation]
  | .mappingTarget => [.component, .integration]

namespace Shape

/-- No list of texts of the shape stands as a mapping with an entry named `type`. -/
def Untyped (shape : Shape) (entries : Entries) : Prop :=
  ∀ f ∈ shape, f.2.breaksOn (entries.field f.1) = false

def UntypedBody (shape : Shape) (body : Value) : Prop :=
  ∀ entries, body = .dict entries → Untyped shape entries

theorem untyped_of_no_texts {shape : Shape} (h : List.all shape (fun f => !f.2.textItems) = true)
    (entries : Entries) : Untyped shape entries := by
  intro f hf
  have hnone : f.2.textItems = false := by simpa using List.all_eq_true.mp h f hf
  rw [FieldRule.breaksOn.eq_def]
  split
  · rw [hnone, Bool.false_and]
  · rfl

theorem untyped_nil (shape : Shape) : Untyped shape [] := fun _ _ => rfl

end Shape

structure DeferredReference.ByKind (r : DeferredReference) : Prop where
  spaces : r.spaces = r.kind.spaces
  byName : r.kind ≠ .field ∧ r.kind ≠ .mappingTarget

structure Permitted where
  fault : Diagnostic → Prop
  reference : DeferredReference → Prop
  /-- Whether error names may be used. -/
  uses : Prop
  opened : ∀ {o : Opening}, o ∈ Opening.all → ∀ {message : String},
    o.text.toList <+: message.toList → ∀ path : String,
      fault (.make o.category o.severity path message o.suggestion)
  byKind : ∀ {r : DeferredReference}, r.ByKind → reference r

namespace Permitted

def item (limit : Int) (uses : Prop) : Permitted :=
  ⟨ItemFault limit, DeferredReference.ByKind, uses, .opened, id⟩

def notFatal : Permitted where
  fault d := d.severity ≠ .fatal
  reference _ := True
  uses := True
  opened ho _ _ _ := Opening.severity_ne_fatal _ ho
  byKind _ := trivial

variable (π : Permitted) (text : String) {message : String}

theorem syntaxError (ht : text ∈ Opening.malformed) (h : text.toList <+: message.toList)
    (path : String) : π.fault (.syntaxError path message) := by
  have ho : ⟨.syntaxError, text, .error, none⟩ ∈ Opening.all :=
    List.mem_append_left _ (List.mem_append_left _ (List.mem_append_left _ (List.mem_map_of_mem ht)))
  exact π.opened ho h path

theorem schemaError (ht : text ∈ Opening.misshapen) (h : text.toList <+: message.toList)
    (path : String) : π.fault (.schemaError path message) := by
  have ho : ⟨.schema, text, .error, none⟩ ∈ Opening.all :=
    List.mem_append_left _ (List.mem_append_left _ (List.mem_append_right _ (List.mem_map_of_mem ht)))
  exact π.opened ho h path

theorem schemaWarning (ht : text ∈ Opening.doubtful) (h : text.toList <+: message.toList)
    (path : String) : π.fault (.schemaWarning path message) := by
  have ho : ⟨.schema, text, .warning, none⟩ ∈ Opening.all :=
    List.mem_append_left _ (List.mem_append_right _ (List.mem_map_of_mem ht))
  exact π.opened ho h path

end Permitted

namespace Load

open ItemFault (opens_append)

variable {α β : Type} {P : Prop} {π : Permitted}

structure Behaves (P : Prop) (π : Permitted) (x : Load α) : Prop where
  runs : P → ∃ a notes, x = .ok (a, notes)
  faults : ∀ {a notes}, x = .ok (a, notes) → ∀ d ∈ notes.diagnostics, π.fault d
  references : ∀ {a notes}, x = .ok (a, notes) → ∀ r ∈ notes.references, π.reference r
  uses : ∀ {a notes}, x = .ok (a, notes) → π.uses ∨ notes.errorUses = []

theorem Behaves.bind {x : Load α} {f : α → Load β} (hx : Behaves P π x)
    (hf : ∀ a notes, x = .ok (a, notes) → Behaves P π (f a)) : Behaves P π (x >>= f) := by
  refine ⟨fun hP => ?_, fun h d hd => ?_, fun h r hr => ?_, fun h => ?_⟩
  · obtain ⟨a, first, ha⟩ := hx.runs hP
    obtain ⟨b, rest, hb⟩ := (hf a first ha).runs hP
    exact ⟨b, first ++ rest, load_bind_eq_ok.mpr ⟨a, first, rest, ha, hb, rfl⟩⟩
  · obtain ⟨a, first, rest, ha, hb, rfl⟩ := load_bind_eq_ok.mp h
    rcases List.mem_append.mp hd with hd | hd
    · exact hx.faults ha d hd
    · exact (hf a first ha).faults hb d hd
  · obtain ⟨a, first, rest, ha, hb, rfl⟩ := load_bind_eq_ok.mp h
    rcases List.mem_append.mp hr with hr | hr
    · exact hx.references ha r hr
    · exact (hf a first ha).references hb r hr
  · obtain ⟨a, first, rest, ha, hb, rfl⟩ := load_bind_eq_ok.mp h
    rcases hx.uses ha with huses | hfirst
    · exact .inl huses
    · exact ((hf a first ha).uses hb).imp_right fun hrest => List.append_eq_nil_iff.mpr ⟨hfirst, hrest⟩

theorem Behaves.next {x : Load α} {f : α → Load β} (hx : Behaves P π x)
    (hf : ∀ a, Behaves P π (f a)) : Behaves P π (x >>= f) := hx.bind fun a _ _ => hf a

theorem behaves_ok {a : α} {notes : Notes} (hd : ∀ d ∈ notes.diagnostics, π.fault d)
    (hr : ∀ r ∈ notes.references, π.reference r) (hu : π.uses ∨ notes.errorUses = []) :
    Behaves P π (.ok (a, notes)) := by
  refine ⟨fun _ => ⟨a, notes, rfl⟩, fun h => ?_, fun h => ?_, fun h => ?_⟩
  · cases h
    exact hd
  · cases h
    exact hr
  · cases h
    exact hu

theorem behaves_pure (a : α) : Behaves P π (pure a) :=
  behaves_ok (List.forall_mem_nil _) (List.forall_mem_nil _) (.inr rfl)

theorem behaves_reportAll {ds : List Diagnostic} (h : ∀ d ∈ ds, π.fault d) :
    Behaves P π (reportAll ds) := behaves_ok h (List.forall_mem_nil _) (.inr rfl)

theorem behaves_report {d : Diagnostic} (h : π.fault d) : Behaves P π (report d) := by
  refine behaves_reportAll fun e he => ?_
  rw [List.mem_singleton.mp he]
  exact h

theorem behaves_reject {d : Diagnostic} (h : π.fault d) (a : α) :
    Behaves P π (do report d; return a) := (behaves_report h).next fun _ => behaves_pure a

theorem behaves_references {references : List DeferredReference}
    (h : ∀ r ∈ references, π.reference r) : Behaves P π (.ok ((), { references })) :=
  behaves_ok (List.forall_mem_nil _) h (.inr rfl)

theorem behaves_defer {path name : String} {kind : ReferenceKind} {spaces : List Namespace}
    (h : π.reference ⟨path, name, spaces, kind⟩) : Behaves P π (defer path name kind spaces) := by
  refine behaves_references fun r hr => ?_
  rw [List.mem_singleton.mp hr]
  exact h

theorem behaves_useError (h : π.uses) (name path : String) : Behaves P π (useError name path) :=
  behaves_ok (List.forall_mem_nil _) (List.forall_mem_nil _) (.inl h)

theorem behaves_lift {x : Except Failure α} (h : P → ∃ a, x = .ok a) : Behaves P π (lift x) := by
  cases x with
  | error e =>
      refine ⟨fun hP => ?_, nofun, nofun, nofun⟩
      obtain ⟨a, ha⟩ := h hP
      cases ha
  | ok a => exact behaves_pure a

theorem behaves_guard {c : Prop} [Decidable c] {e : Failure} {x : Load α} (hc : P → ¬ c)
    (hx : Behaves P π x) : Behaves P π (if c then fail e else x) := by
  split
  · next h => exact ⟨fun hP => absurd h (hc hP), nofun, nofun, nofun⟩
  · exact hx

theorem behaves_ite {c : Prop} [Decidable c] {x y : Load α} (hx : c → Behaves P π x)
    (hy : ¬ c → Behaves P π y) : Behaves P π (if c then x else y) := by
  split
  · next h => exact hx h
  · next h => exact hy h

theorem Behaves.perhaps {c : Prop} [Decidable c] {d : Diagnostic} (h : π.fault d) {f : Unit → Load β}
    (hf : ∀ u, Behaves P π (f u)) : Behaves P π (if c then report d >>= f else f ()) :=
  behaves_ite (fun _ => (behaves_report h).next hf) fun _ => hf ()

theorem behaves_each {f : α → Load β} {as : List α} (hf : ∀ a ∈ as, Behaves P π (f a)) :
    Behaves P π (each f as) := by
  induction as with
  | nil => exact behaves_pure []
  | cons a as ih =>
      refine (hf a List.mem_cons_self).next fun b => ?_
      exact (ih fun a ha => hf a (List.mem_cons_of_mem _ ha)).next fun bs => behaves_pure _

theorem behaves_eachSome {f : α → Load (Option β)} {as : List α}
    (hf : ∀ a ∈ as, Behaves P π (f a)) : Behaves P π (eachSome f as) :=
  (behaves_each hf).next fun _ => behaves_pure _

theorem mem_of_each {f : α → Load β} {as : List α} {bs : List β} {notes : Notes}
    (h : each f as = .ok (bs, notes)) {b : β} (hb : b ∈ bs) :
    ∃ a ∈ as, ∃ notes, f a = .ok (b, notes) := by
  induction as generalizing bs notes with
  | nil =>
      cases h
      cases hb
  | cons a as ih =>
      obtain ⟨c, first, rest, hc, h, -⟩ := load_bind_eq_ok.mp h
      obtain ⟨cs, second, _, hcs, h, -⟩ := load_bind_eq_ok.mp h
      cases h
      rcases List.mem_cons.mp hb with rfl | hb
      · exact ⟨a, List.mem_cons_self, first, hc⟩
      · obtain ⟨a', ha', hfound⟩ := ih hcs hb
        exact ⟨a', List.mem_cons_of_mem _ ha', hfound⟩

theorem mem_of_eachSome {f : α → Load (Option β)} {as : List α} {bs : List β} {notes : Notes}
    (h : eachSome f as = .ok (bs, notes)) {b : β} (hb : b ∈ bs) :
    ∃ a ∈ as, ∃ notes, f a = .ok (some b, notes) := by
  obtain ⟨os, first, rest, hos, h, -⟩ := load_bind_eq_ok.mp h
  cases h
  exact mem_of_each hos (by simpa using hb)

theorem mem_indexed_iff {items : List Value} {i : Nat} {v : Value} :
    (i, v) ∈ indexed items ↔ items[i]? = some v := by
  rw [indexed, List.mem_map, ← List.mem_zipIdx_iff_getElem? (x := (v, i))]
  constructor
  · rintro ⟨⟨w, j⟩, hw, heq⟩
    cases heq
    exact hw
  · intro h
    exact ⟨(v, i), h, rfl⟩

theorem mem_indexed {items : List Value} {p : Nat × Value} (h : p ∈ indexed items) : p.2 ∈ items := by
  obtain ⟨q, hq, rfl⟩ := List.mem_map.mp h
  exact List.fst_mem_of_mem_zipIdx hq

section Mild

variable {d : Diagnostic}

theorem mild_report (h : d.severity ≠ .fatal) : Behaves P .notFatal (report d) := behaves_report h

theorem mild_reject {a : α} (h : d.severity ≠ .fatal) :
    Behaves P .notFatal (do report d; return a) := behaves_reject h a

theorem mild_perhaps {c : Prop} [Decidable c] (h : d.severity ≠ .fatal) {f : Unit → Load α}
    (hf : ∀ u, Behaves P .notFatal (f u)) :
    Behaves P .notFatal (if c then report d >>= f else f ()) := Behaves.perhaps h hf

end Mild

/-! ### Values -/

theorem behaves_keysWritable {entries : Entries} (h : P → entries.Short) :
    Behaves P π (keysWritable entries) :=
  behaves_guard (fun hP => by simp [(h hP).any_key]) (behaves_pure ())

theorem behaves_shown {v : Value} (h : P → v.Short) : Behaves P π (shown v) :=
  behaves_guard (fun hP => by simp [Value.hasLongInteger_eq_false (h hP)]) (behaves_pure _)

theorem fault_misshapen {shape : Shape} {entries : Entries} {path : String} {ds : List Diagnostic}
    (h : shape.check entries path = .ok ds) : ∀ d ∈ ds, π.fault d := by
  intro d hd
  obtain ⟨field, fault, rfl⟩ := Shape.exists_fault h d hd
  refine π.schemaError "'" (by simp [Opening.misshapen]) ?_ _
  exact opens_append (opens_append (opens_append (List.prefix_refl _)))

theorem check_eq_ok {shape : Shape} {entries : Entries} (h : Shape.Untyped shape entries)
    (path : String) : ∃ ds, shape.check entries path = .ok ds := by
  have hnone : ¬ (shape.any fun f => f.2.breaksOn (entries.field f.1)) = true := by
    rw [List.any_eq_true]
    rintro ⟨f, hf, hbreaks⟩
    rw [h f hf] at hbreaks
    cases hbreaks
  rw [Shape.check, if_neg hnone]
  exact ⟨_, rfl⟩

theorem lift_eq_ok {x : Except Failure α} {a : α} {notes : Notes} (h : lift x = .ok (a, notes)) :
    x = .ok a := by
  cases x with
  | error e => cases h
  | ok b =>
      cases h
      rfl

theorem behaves_checkShape {shape : Shape} {entries : Entries} {path : String}
    (h : P → Shape.Untyped shape entries) : Behaves P π (checkShape shape entries path) :=
  (behaves_lift fun hP => check_eq_ok (h hP) path).bind fun _ _ hds =>
    behaves_reportAll (fault_misshapen (lift_eq_ok hds))

theorem behaves_text {v : Value} {path : String} (h : P → v.Short) : Behaves P π (text v path) := by
  unfold text
  split
  · exact behaves_pure _
  · exact behaves_pure _
  · exact behaves_pure _
  · exact (behaves_shown h).next fun _ => behaves_pure _
  · exact behaves_pure _
  · exact behaves_reject (π.schemaError "expected a text value, got " (by decide)
      (opens_append (List.prefix_refl _)) _) _

theorem behaves_textField {entries : Entries} {path field : String} (h : P → entries.Short) :
    Behaves P π (textField entries path field) := behaves_text fun hP => (h hP).field field

theorem behaves_texts {v : Value} {path : String} (h : P → v.Short) : Behaves P π (texts v path) := by
  unfold texts
  split
  · exact behaves_pure []
  · refine behaves_eachSome fun p hp => behaves_text fun hP => ?_
    cases h hP with
    | list hitems => exact hitems _ (mem_indexed hp)
  · exact (behaves_text h).next fun _ => behaves_pure _

theorem behaves_nameItem {path : String} {p : Nat × Value} (h : P → p.2.Short) :
    Behaves P π (nameItem path p) := by
  have hbad (path : String) : Behaves P π (do
      report (.schemaError path ("expected a name, got " ++ (← shown p.2)))
      return (none : Option (String × String))) := by
    refine (behaves_shown h).next fun s => behaves_reject ?_ _
    refine π.schemaError "expected a name" (by decide) (opens_append ?_) _
    decide
  unfold nameItem
  dsimp only
  split
  · exact behaves_ite (fun _ => hbad _) fun _ => behaves_pure _
  · exact hbad _

theorem behaves_names {v : Value} {path : String} (h : P → v.Short) : Behaves P π (names v path) := by
  unfold names
  split
  · exact behaves_pure []
  · exact behaves_pure _
  · refine behaves_eachSome fun p hp => behaves_nameItem fun hP => ?_
    cases h hP with
    | list hitems => exact hitems _ (mem_indexed hp)
  · refine behaves_reject (π.schemaError "expected a name" (by decide) ?_ _) _
    exact opens_append (by decide)

theorem behaves_deferNames {v : Value} {path : String} {kind : ReferenceKind}
    {spaces : List Namespace} (h : P → v.Short) (hspaces : spaces = kind.spaces)
    (hkind : kind ≠ .field ∧ kind ≠ .mappingTarget) :
    Behaves P π (deferNames v path kind spaces) := by
  refine (behaves_names h).next fun names => behaves_each fun p _ => ?_
  exact (behaves_defer (π.byKind ⟨hspaces, hkind⟩)).next fun _ => behaves_pure _

theorem behaves_deferField {entries : Entries} {path field : String} {kind : ReferenceKind}
    {space : Namespace} (h : P → entries.Short) (hspace : [space] = kind.spaces)
    (hkind : kind ≠ .field ∧ kind ≠ .mappingTarget) :
    Behaves P π (deferField entries path field kind space) :=
  behaves_deferNames (fun hP => (h hP).field field) hspace hkind

theorem behaves_extraFields {entries : Entries} {known : List String} (h : P → entries.Short) :
    Behaves P π (extraFields entries known) :=
  (behaves_keysWritable fun hP => (h hP).without known).next fun _ => behaves_pure _

/-! ### Types -/

theorem byKind_references {t : TypeExpr} {path : String} {r : DeferredReference}
    (hr : r ∈ t.references path) : r.ByKind := by
  rcases List.mem_append.mp hr with hr | hr
  · obtain ⟨⟨use, name⟩, -, rfl⟩ := List.mem_map.mp hr
    cases use <;> exact ⟨rfl, nofun, nofun⟩
  · obtain ⟨target, -, rfl⟩ := List.mem_map.mp hr
    exact ⟨rfl, nofun, nofun⟩

section Types

variable {limit : Int} {uses : Prop}

theorem fault_parse {text path : String} {reading : TypeReading}
    (h : TypeExpr.parse text path limit = .ok reading) :
    ∀ d ∈ reading.diagnostics, ItemFault limit d := by
  rw [TypeExpr.parse] at h
  split at h
  · next t issues hread =>
      cases h
      intro d hd
      obtain ⟨issue, hissue, rfl⟩ := List.mem_map.mp hd
      have hpasses := (TypeExpr.tells_readWhole limit text.toList).ok _ hread issue hissue
      exact .issue hpasses path text _
  · next fault hread =>
      cases h
      intro d hd
      rw [List.mem_singleton.mp hd]
      exact .fault hread path
  · cases h

theorem parse_eq_ok {text : String} (h : ¬ Text.HasLongNumber text.toList) (path : String) :
    ∃ reading, TypeExpr.parse text path limit = .ok reading := by
  rw [TypeExpr.parse]
  split
  · exact ⟨_, rfl⟩
  · exact ⟨_, rfl⟩
  · next hread => exact absurd (TypeExpr.hasLongNumber_of_readWhole hread) h

theorem behaves_typeText {text path : String} (h : P → ¬ Text.HasLongNumber text.toList) :
    Behaves P (.item limit uses) (typeText limit text path) := by
  refine (behaves_lift fun hP => parse_eq_ok (h hP) path).bind fun reading _ hreading => ?_
  refine (behaves_reportAll (fault_parse (lift_eq_ok hreading))).next fun _ => ?_
  cases reading.expression with
  | none => exact behaves_pure none
  | some t => exact (behaves_references fun _ => byKind_references).next fun _ => behaves_pure _

theorem behaves_noType (path kind : String) :
    Behaves P (.item limit uses) (do
      report (.schemaError path ("expected a type string, got " ++ kind)
        (some "Write the type as a string, e.g. 'string' or 'optional[reference[User]]'"))
      return ((none : Option TypeExpr), (none : Option String))) :=
  behaves_reject (Permitted.opened _ (o := Opening.untyped) (by decide)
    (opens_append (List.prefix_refl _)) path) _

mutual

theorem behaves_typeOf : ∀ {v : Value} {path : String}, (P → v.Short) →
    Behaves P (.item limit uses) (typeOf limit v path)
  | .scalar (.str s), path, h => by
      rw [typeOf]
      refine (behaves_typeText fun hP => ?_).next fun _ => behaves_pure _
      cases h hP with
      | scalar hs => cases hs with | str hs => exact hs
  | .dict entries, path, h => by
      rw [typeOf]
      have hentries (hP : P) : Entries.Short entries := Entries.short_dict (h hP)
      refine (behaves_keysWritable hentries).next fun _ => ?_
      exact (behaves_fieldTypes hentries).next fun _ => behaves_pure _
  | .scalar .null, _, _ => behaves_noType _ _
  | .scalar (.bool _), _, _ => behaves_noType _ _
  | .scalar (.int _), _, _ => behaves_noType _ _
  | .scalar (.float _), _, _ => behaves_noType _ _
  | .scalar (.date _), _, _ => behaves_noType _ _
  | .scalar (.timestamp _), _, _ => behaves_noType _ _
  | .scalar (.bytes _), _, _ => behaves_noType _ _
  | .list _, _, _ => behaves_noType _ _
  | .tuple _, _, _ => behaves_noType _ _
  | .set _, _, _ => behaves_noType _ _

theorem behaves_fieldTypes : ∀ {entries : Entries} {path : String}, (P → entries.Short) →
    Behaves P (.item limit uses) (fieldTypes limit entries path)
  | [], _, _ => by
      rw [fieldTypes]
      exact behaves_pure []
  | (key, v) :: rest, path, h => by
      rw [fieldTypes]
      have hrest (hP : P) : Entries.Short rest :=
        ⟨fun e he => (h hP).keys e (List.mem_cons_of_mem _ he),
          fun e he => (h hP).values e (List.mem_cons_of_mem _ he)⟩
      refine (behaves_typeOf fun hP => (h hP).values _ List.mem_cons_self).next fun r => ?_
      exact (behaves_fieldTypes hrest).next fun more => behaves_pure _

end

end Types

end Load

theorem short_unwrapped {v : Value} (path key : String) (h : v.Short) :
    (unwrapped v path key).1.Short := by
  unfold unwrapped
  split
  · split
    · next hinner => exact (Entries.short_dict h).text? hinner
    · exact h
  · exact h

end AppSpec
