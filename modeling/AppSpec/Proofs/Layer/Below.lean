import AppSpec.Layer.Access
import AppSpec.Layer.Components
import AppSpec.Layer.Domain
import AppSpec.Layer.Logic
import AppSpec.Layer.Mapping
import AppSpec.Layer.Workflow
import AppSpec.Proofs.Layer.Behaves

/-!
Where the diagnostics and the references of an item stand: below the path at which it is loaded.
-/

namespace AppSpec

namespace Path

/-- The text of the path begins with that of the other. -/
structure Below (base path : String) : Prop where
  isPrefix : base.toList <+: path.toList

variable {base path : String}

theorem Below.refl (path : String) : Below path path := ⟨List.prefix_rfl⟩

theorem Below.trans {between : String} (h : Below base between) (h' : Below between path) :
    Below base path := ⟨h.isPrefix.trans h'.isPrefix⟩

theorem below_join (base : String) (s : Segment) : Below base (join base s) := by
  constructor
  cases s with
  | index i =>
      rw [join, String.append_assoc, String.append_assoc, String.toList_append]
      exact List.prefix_append _ _
  | name s =>
      rw [join]
      split
      · next hempty =>
          rw [String.isEmpty_iff.mp hempty]
          exact List.nil_prefix
      · rw [String.append_assoc, String.toList_append]
        exact List.prefix_append _ _

theorem Below.child (h : Below base path) (name : String) : Below base (Path.child path name) :=
  h.trans (below_join path _)

theorem Below.item (h : Below base path) (i : Nat) : Below base (Path.item path i) :=
  h.trans (below_join path _)

theorem Below.joinAll (h : Below base path) (parts : List Segment) :
    Below base (Path.joinAll path parts) := by
  induction parts generalizing path with
  | nil => exact h
  | cons s parts ih => exact ih (h.trans (below_join path s))

end Path

open AppSpec.Path (Below)

/-- All diagnostics and references of the notes stand below the path. -/
structure Notes.StandBelow (base : String) (notes : Notes) : Prop where
  diagnostics : ∀ d ∈ notes.diagnostics, Below base d.path
  references : ∀ r ∈ notes.references, Below base r.path

namespace Notes

variable {base : String} {notes more : Notes}

theorem below_empty : Notes.StandBelow base {} := ⟨List.forall_mem_nil _, List.forall_mem_nil _⟩

theorem StandBelow.append (h : notes.StandBelow base) (h' : more.StandBelow base) :
    (notes ++ more).StandBelow base where
  diagnostics d hd := (List.mem_append.mp hd).elim (h.diagnostics d) (h'.diagnostics d)
  references r hr := (List.mem_append.mp hr).elim (h.references r) (h'.references r)

theorem StandBelow.mono {between : String} (h : notes.StandBelow between)
    (hbase : Below base between) : notes.StandBelow base where
  diagnostics d hd := hbase.trans (h.diagnostics d hd)
  references r hr := hbase.trans (h.references r hr)

end Notes

namespace Load

variable {α β : Type} {base path : String}

/-- All that comes up on loading stands below the path. -/
structure StaysBelow (base : String) (x : Load α) : Prop where
  notes : ∀ {a notes}, x = .ok (a, notes) → notes.StandBelow base

theorem StaysBelow.bind {x : Load α} {f : α → Load β} (hx : StaysBelow base x)
    (hf : ∀ a notes, x = .ok (a, notes) → StaysBelow base (f a)) : StaysBelow base (x >>= f) := by
  refine ⟨fun h => ?_⟩
  obtain ⟨a, first, rest, ha, hb, rfl⟩ := load_bind_eq_ok.mp h
  exact (hx.notes ha).append ((hf a first ha).notes hb)

theorem StaysBelow.next {x : Load α} {f : α → Load β} (hx : StaysBelow base x)
    (hf : ∀ a, StaysBelow base (f a)) : StaysBelow base (x >>= f) := hx.bind fun a _ _ => hf a

theorem below_ok {a : α} {notes : Notes} (h : notes.StandBelow base) :
    StaysBelow base (.ok (a, notes)) := by
  refine ⟨fun hok => ?_⟩
  cases hok
  exact h

theorem below_pure (a : α) : StaysBelow base (pure a) := below_ok Notes.below_empty

theorem below_fail (f : Failure) : StaysBelow base (fail f : Load α) := ⟨nofun⟩

theorem below_lift (x : Except Failure α) : StaysBelow base (lift x) := by
  cases x with
  | error e => exact ⟨nofun⟩
  | ok a => exact below_pure a

theorem below_reportAll {ds : List Diagnostic} (h : ∀ d ∈ ds, Below base d.path) :
    StaysBelow base (reportAll ds) := below_ok ⟨h, List.forall_mem_nil _⟩

theorem below_report {d : Diagnostic} (h : Below base d.path) : StaysBelow base (report d) :=
  below_reportAll (by simpa using h)

theorem below_reject {d : Diagnostic} (h : Below base d.path) (a : α) :
    StaysBelow base (do report d; return a) := (below_report h).next fun _ => below_pure a

theorem below_references {references : List DeferredReference}
    (h : ∀ r ∈ references, Below base r.path) :
    StaysBelow base (.ok ((), { references }) : Load Unit) := below_ok ⟨List.forall_mem_nil _, h⟩

theorem below_defer (h : Below base path) (name : String) (kind : ReferenceKind)
    (spaces : List Namespace) : StaysBelow base (defer path name kind spaces) :=
  below_references (by simpa using h)

theorem below_useError (name path : String) : StaysBelow base (useError name path) :=
  below_ok ⟨List.forall_mem_nil _, List.forall_mem_nil _⟩

theorem below_ite {c : Prop} [Decidable c] {x y : Load α} (hx : StaysBelow base x)
    (hy : StaysBelow base y) : StaysBelow base (if c then x else y) := by
  split
  · exact hx
  · exact hy

theorem StaysBelow.perhaps {c : Prop} [Decidable c] {d : Diagnostic} (h : Below base d.path)
    {f : Unit → Load β} (hf : ∀ u, StaysBelow base (f u)) :
    StaysBelow base (if c then report d >>= f else f ()) :=
  below_ite ((below_report h).next hf) (hf ())

theorem below_each {f : α → Load β} {as : List α} (hf : ∀ a ∈ as, StaysBelow base (f a)) :
    StaysBelow base (each f as) := by
  induction as with
  | nil => exact below_pure []
  | cons a as ih =>
      refine (hf a List.mem_cons_self).next fun b => ?_
      exact (ih fun a ha => hf a (List.mem_cons_of_mem _ ha)).next fun bs => below_pure _

theorem below_eachSome {f : α → Load (Option β)} {as : List α}
    (hf : ∀ a ∈ as, StaysBelow base (f a)) : StaysBelow base (eachSome f as) :=
  (below_each hf).next fun _ => below_pure _

/-! ### Values -/

theorem below_keysWritable (entries : Entries) : StaysBelow base (keysWritable entries) :=
  below_ite (below_fail _) (below_pure ())

theorem below_shown (v : Value) : StaysBelow base (shown v) :=
  below_ite (below_fail _) (below_pure _)

theorem below_check {shape : Shape} {entries : Entries} {ds : List Diagnostic}
    (h : shape.check entries path = .ok ds) : ∀ d ∈ ds, Below path d.path := by
  intro d hd
  obtain ⟨field, fault, rfl⟩ := Shape.exists_fault h d hd
  exact (Below.refl path).joinAll _

theorem below_checkShape {shape : Shape} {entries : Entries} (h : Below base path) :
    StaysBelow base (checkShape shape entries path) :=
  (below_lift _).bind fun _ _ hds => below_reportAll fun d hd =>
    h.trans (below_check (lift_eq_ok hds) d hd)

theorem below_text {v : Value} (h : Below base path) : StaysBelow base (text v path) := by
  unfold text
  split
  · exact below_pure _
  · exact below_pure _
  · exact below_pure _
  · exact (below_shown _).next fun _ => below_pure _
  · exact below_pure _
  · exact below_reject h _

theorem below_textField {entries : Entries} {field : String} (h : Below base path) :
    StaysBelow base (textField entries path field) := below_text (h.child field)

theorem below_texts {v : Value} (h : Below base path) : StaysBelow base (texts v path) := by
  unfold texts
  split
  · exact below_pure []
  · exact below_eachSome fun p _ => below_text (h.item p.1)
  · exact (below_text h).next fun _ => below_pure _

theorem below_nameItem {p : Nat × Value} (h : Below base path) :
    StaysBelow base (nameItem path p) := by
  have hbad (path : String) (h : Below base path) : StaysBelow base (do
      report (.schemaError path ("expected a name, got " ++ (← shown p.2)))
      return (none : Option (String × String))) :=
    (below_shown _).next fun s => below_reject h none
  unfold nameItem
  dsimp only
  split
  · exact below_ite (hbad _ (h.item _)) (below_pure _)
  · exact hbad _ (h.item _)

theorem below_names {v : Value} (h : Below base path) : StaysBelow base (names v path) := by
  unfold names
  split
  · exact below_pure []
  · exact below_pure _
  · exact below_eachSome fun p _ => below_nameItem h
  · exact below_reject h []

/-- The names of a value stand at its path, or at an item of it. -/
theorem paths_names {v : Value} {found : List (String × String)} {notes : Notes}
    (h : names v path = .ok (found, notes)) :
    ∀ p ∈ found, p.2 = path ∨ ∃ i, p.2 = Path.item path i := by
  intro p hp
  unfold names at h
  split at h
  · cases h
    cases hp
  · cases h
    split at hp
    · cases hp
    · cases List.mem_singleton.mp hp
      exact .inl rfl
  · obtain ⟨item, -, first, hitem⟩ := mem_of_eachSome h hp
    refine .inr ⟨item.1, ?_⟩
    have hbad {path : String} {notes : Notes} : (do
        report (.schemaError path ("expected a name, got " ++ (← shown item.2)))
        return none : Load (Option (String × String))) ≠ .ok (some p, notes) := by
      intro hreport
      obtain ⟨_, _, _, -, hnone, -⟩ := load_bind_eq_ok.mp hreport
      obtain ⟨_, _, _, -, hnone, -⟩ := load_bind_eq_ok.mp hnone
      cases hnone
    unfold nameItem at hitem
    dsimp only at hitem
    split at hitem
    · split at hitem
      · exact (hbad hitem).elim
      · cases hitem
        rfl
    · exact (hbad hitem).elim
  · obtain ⟨_, _, _, -, hend, -⟩ := load_bind_eq_ok.mp h
    cases hend
    cases hp

theorem below_of_names {v : Value} {found : List (String × String)} {notes : Notes}
    (h : names v path = .ok (found, notes)) (hbase : Below base path) :
    ∀ p ∈ found, Below base p.2 := by
  intro p hp
  rcases paths_names h p hp with heq | ⟨i, heq⟩
  · exact heq ▸ hbase
  · exact heq ▸ hbase.item i

theorem below_deferNames {v : Value} {kind : ReferenceKind} {spaces : List Namespace}
    (h : Below base path) : StaysBelow base (deferNames v path kind spaces) :=
  (below_names h).bind fun _ _ hnames => below_each fun p hp =>
    (below_defer (below_of_names hnames h p hp) _ _ _).next fun _ => below_pure _

theorem below_deferField {entries : Entries} {field : String} {kind : ReferenceKind}
    {space : Namespace} (h : Below base path) :
    StaysBelow base (deferField entries path field kind space) :=
  below_deferNames (h.child field)

theorem below_extraFields {entries : Entries} {known : List String} :
    StaysBelow base (extraFields entries known) :=
  (below_keysWritable _).next fun _ => below_pure _

/-! ### Types -/

theorem path_references {t : TypeExpr} {r : DeferredReference} (hr : r ∈ t.references path) :
    r.path = path := by
  rcases List.mem_append.mp hr with hr | hr
  · obtain ⟨⟨use, name⟩, -, rfl⟩ := List.mem_map.mp hr
    cases use <;> rfl
  · obtain ⟨target, -, rfl⟩ := List.mem_map.mp hr
    rfl

theorem path_parse {limit : Int} {text : String} {reading : TypeReading}
    (h : TypeExpr.parse text path limit = .ok reading) :
    ∀ d ∈ reading.diagnostics, d.path = path := by
  rw [TypeExpr.parse] at h
  split at h
  · cases h
    intro d hd
    obtain ⟨issue, -, rfl⟩ := List.mem_map.mp hd
    rfl
  · cases h
    intro d hd
    rw [List.mem_singleton.mp hd]
    rfl
  · cases h

theorem below_typeText {limit : Int} {text : String} (h : Below base path) :
    StaysBelow base (typeText limit text path) := by
  refine (below_lift _).bind fun reading _ hreading => ?_
  refine (below_reportAll fun d hd => path_parse (lift_eq_ok hreading) d hd ▸ h).next fun _ => ?_
  cases reading.expression with
  | none => exact below_pure none
  | some t =>
      exact (below_references fun r hr => path_references hr ▸ h).next fun _ => below_pure _

mutual

theorem below_typeOf {limit : Int} : ∀ {v : Value} {path : String}, Below base path →
    StaysBelow base (typeOf limit v path)
  | .scalar (.str s), path, h => by
      rw [typeOf]
      exact (below_typeText h).next fun _ => below_pure _
  | .dict entries, path, h => by
      rw [typeOf]
      refine (below_keysWritable _).next fun _ => ?_
      exact (below_fieldTypes h).next fun _ => below_pure _
  | .scalar .null, _, h => below_reject h _
  | .scalar (.bool _), _, h => below_reject h _
  | .scalar (.int _), _, h => below_reject h _
  | .scalar (.float _), _, h => below_reject h _
  | .scalar (.date _), _, h => below_reject h _
  | .scalar (.timestamp _), _, h => below_reject h _
  | .scalar (.bytes _), _, h => below_reject h _
  | .list _, _, h => below_reject h _
  | .tuple _, _, h => below_reject h _
  | .set _, _, h => below_reject h _

theorem below_fieldTypes {limit : Int} : ∀ {entries : Entries} {path : String}, Below base path →
    StaysBelow base (fieldTypes limit entries path)
  | [], _, _ => by
      rw [fieldTypes]
      exact below_pure []
  | (key, v) :: rest, path, h => by
      rw [fieldTypes]
      refine (below_typeOf (h.child _)).next fun r => ?_
      exact (below_fieldTypes h).next fun more => below_pure _

end

end Load

/-! ### Items of collections -/

open Load

variable {base path : String}

theorem below_bodyEntries {α : Type} {f : Entries → Load (Option α)} {body : Value}
    {problem : String} (h : Below base path) (hf : ∀ entries, StaysBelow base (f entries)) :
    StaysBelow base (do
      match ← bodyEntries? body path problem with
      | none => return none
      | some entries => f entries) := by
  have hbody : StaysBelow base (bodyEntries? body path problem) := by
    unfold bodyEntries?
    split
    · exact below_pure _
    · exact below_pure _
    · exact below_reject h none
  refine hbody.next fun entries? => ?_
  cases entries? with
  | none => exact below_pure none
  | some entries => exact hf entries

theorem below_unwrapped (v : Value) (h : Below base path) (key : String) :
    Below base (unwrapped v path key).2 := by
  unfold unwrapped
  split
  · split
    · exact h.child key
    · exact h
  · exact h

theorem Components.below_loadMembers (v : Value) : StaysBelow base (loadMembers v) :=
  below_ite (below_fail _) (below_pure _)

/-- Loading an item stays below the path of the item, wherever that is. -/
def ItemStaysBelow {α : Type} (load : String → Value → String → Load (Option α)) : Prop :=
  ∀ (name : String) (body : Value) (path : String), StaysBelow path (load name body path)

theorem Components.below_loadComponent : ItemStaysBelow loadComponent := by
  intro id body path
  have h := Below.refl path
  refine below_bodyEntries h fun entries => ?_
  refine (below_checkShape h).next fun _ => (below_textField h).next fun description => ?_
  refine (below_deferField h).next fun responsibilities => ?_
  refine (below_deferField h).next fun dependencies => ?_
  refine (below_deferField h).next fun resources => ?_
  exact (below_loadMembers _).next fun exposes => below_pure _

theorem Infrastructure.below_loadResource : ItemStaysBelow loadResource := by
  intro id body path
  have h := Below.refl path
  unfold loadResource
  split
  · exact below_pure _
  · exact below_pure _
  · exact (below_textField h).next fun kind => below_extraFields.next fun config => below_pure _
  · exact below_reject h none

theorem Integrations.below_loadIntegration : ItemStaysBelow loadIntegration := by
  intro id body path
  have h := Below.refl path
  refine below_bodyEntries h fun entries => ?_
  refine (below_checkShape h).next fun _ => (below_textField h).next fun kind => ?_
  refine (below_textField h).next fun baseUrl => ?_
  refine (Components.below_loadMembers _).next fun operations => ?_
  exact below_extraFields.next fun config => below_pure _

theorem Pages.below_loadPage : ItemStaysBelow loadPage := by
  intro name body path
  have h := Below.refl path
  refine below_bodyEntries h fun entries => ?_
  refine (below_checkShape h).next fun _ => (below_textField h).next fun description => ?_
  refine (below_deferField h).next fun displays => ?_
  refine (below_deferField h).next fun actions => ?_
  exact (below_deferField h).next fun roles => below_pure _

theorem Security.below_loadRole : ItemStaysBelow loadRole := by
  intro name body path
  have h := Below.refl path
  refine below_bodyEntries h fun entries => ?_
  refine (below_checkShape h).next fun _ => (below_textField h).next fun description => ?_
  exact (below_deferField h).next fun inherits => below_pure _

theorem Domain.below_loadCustomType (limit : Int) : ItemStaysBelow (loadCustomType limit) :=
  fun _ _ path => (below_typeOf (Below.refl path)).next fun _ => below_pure _

theorem Domain.below_loadFields {limit : Int} {entries : Entries} (h : Below base path) :
    StaysBelow base (loadFields limit entries path) := by
  refine (below_keysWritable _).next fun _ => (below_each fun e _ => ?_).next fun _ => below_pure _
  exact (below_typeOf (h.child _)).next fun _ => below_pure _

theorem Domain.below_checkExpression {expression : String} (h : Below base path) :
    StaysBelow base (checkExpression expression path) :=
  below_ite (below_pure ()) (below_report h)

theorem Domain.below_loadRule {p : Nat × Value} (h : Below base path) :
    StaysBelow base (loadRule path p) := by
  have hitem := h.item p.1
  unfold loadRule
  dsimp only
  split
  · exact (below_checkExpression hitem).next fun _ => below_pure _
  · refine (below_lift _).bind fun problems _ hproblems => below_ite ?_ ?_
    · refine (below_text hitem).next fun description => ?_
      exact (below_checkExpression hitem).next fun _ => below_pure _
    · refine (below_reportAll fun d hd => ?_).next fun _ => below_pure none
      exact hitem.trans (below_check (lift_eq_ok hproblems) d hd)
  · exact (below_shown _).next fun s => below_reject hitem none

theorem Domain.below_loadRules {v : Value} (h : Below base path) :
    StaysBelow base (loadRules v path) := by
  unfold loadRules
  split
  · exact below_pure []
  · exact below_eachSome fun p _ => below_loadRule h
  · exact below_reject h []

theorem Domain.below_finishEntity {name : String} {description : Option String} {validation : Value}
    {fields : Named EntityField} (h : Below base path) :
    StaysBelow base (finishEntity name path description validation fields) := by
  unfold finishEntity
  exact .perhaps h fun _ => (below_loadRules (h.child _)).next fun _ => below_pure _

theorem Domain.below_loadEntity (limit : Int) : ItemStaysBelow (loadEntity limit) := by
  intro name body path
  have h := Below.refl path
  rw [loadEntity_eq]
  refine below_bodyEntries h fun entries => ?_
  dsimp only [loadBody]
  split
  · refine (below_checkShape h).next fun _ => (below_textField h).next fun description => ?_
    exact (below_loadFields (h.child _)).next fun fields => below_finishEntity h
  · exact (below_loadFields h).next fun fields => below_finishEntity h

/-! ### Operations -/

namespace Logic

theorem below_listedParameter {p : Nat × Value} (h : Below base path) :
    StaysBelow base (listedParameter path p) := by
  have hmalformed : StaysBelow base (do
      Load.report (.syntaxError (Path.item path p.1) "parameters must be 'name: type' mappings")
      return (none : Option WrittenParameter)) := below_reject (h.item _) none
  unfold listedParameter
  dsimp only
  split
  · split
    · exact below_ite (below_fail _) (below_pure _)
    · exact (below_keysWritable _).next fun _ => below_pure _
    · exact hmalformed
  · exact hmalformed

theorem below_writtenParameters {v : Value} (h : Below base path) :
    StaysBelow base (writtenParameters v path) := by
  unfold writtenParameters
  split
  · exact (below_keysWritable _).next fun _ => below_pure _
  · exact below_eachSome fun p _ => below_listedParameter h
  · exact below_pure []

theorem path_listedParameter {p : Nat × Value} {w : WrittenParameter} {notes : Notes}
    (h : listedParameter path p = .ok (some w, notes)) : Below path w.path := by
  have hchild (name : String) : Below path (Path.child path name) := (Below.refl path).child name
  unfold listedParameter at h
  extract_lets malformed at h
  have hmalformed : malformed ≠ .ok (some w, notes) := by
    intro h
    obtain ⟨_, _, _, -, h, -⟩ := load_bind_eq_ok.mp h
    cases h
  split at h
  · split at h
    · split at h
      · cases h
      · cases h
        exact hchild _
    · obtain ⟨_, _, _, -, h, -⟩ := load_bind_eq_ok.mp h
      cases h
      exact hchild _
    · exact (hmalformed h).elim
  · exact (hmalformed h).elim

theorem path_writtenParameters {v : Value} {written : List WrittenParameter} {notes : Notes}
    (h : writtenParameters v path = .ok (written, notes)) : ∀ w ∈ written, Below path w.path := by
  intro w hw
  unfold writtenParameters at h
  split at h
  · obtain ⟨_, _, _, -, h, -⟩ := load_bind_eq_ok.mp h
    cases h
    obtain ⟨e, -, rfl⟩ := List.mem_map.mp hw
    exact (Below.refl path).child _
  · obtain ⟨p, -, notes, hlisted⟩ := mem_of_eachSome h hw
    exact path_listedParameter hlisted
  · cases h
    cases hw

theorem below_loadWritten {limit : Int} {seen : List String} {written : List WrittenParameter}
    (h : ∀ w ∈ written, Below base w.path) : StaysBelow base (loadWritten limit seen written) := by
  induction written generalizing seen with
  | nil => exact below_pure []
  | cons w written ih =>
      obtain ⟨hw, hrest⟩ := List.forall_mem_cons.mp h
      rw [loadWritten]
      refine below_ite ((below_report hw).next fun _ => ih hrest) ?_
      exact (below_typeOf hw).next fun r => (ih hrest).next fun more => below_pure _

theorem below_loadParameters {limit : Int} {v : Value} (h : Below base path) :
    StaysBelow base (loadParameters limit v path) :=
  (below_writtenParameters h).bind fun _ _ hwritten =>
    below_loadWritten fun w hw => h.trans (path_writtenParameters hwritten w hw)

theorem below_loadOutput {limit : Int} {v : Value} (h : Below base path) :
    StaysBelow base (loadOutput limit v path) := by
  unfold loadOutput
  split
  · exact below_pure _
  · exact below_typeOf h

theorem below_loadErrors {v : Value} (h : Below base path) : StaysBelow base (loadErrors v path) :=
  (below_names h).bind fun _ _ hnames => below_each fun p hp =>
    (below_useError _ _).next fun _ =>
      (below_defer (below_of_names hnames h p hp) _ _ _).next fun _ => below_pure _

theorem below_loadOperation (limit : Int) : ItemStaysBelow (loadOperation limit) := by
  intro name body path
  have h := Below.refl path
  refine below_bodyEntries h fun entries => (below_checkShape h).next fun _ => ?_
  refine (below_loadParameters (h.child _)).next fun inputs => ?_
  refine (below_loadOutput (h.child _)).next fun output => ?_
  refine (below_deferField h).next fun modifies => ?_
  refine (below_loadErrors (h.child _)).next fun errors => ?_
  refine (below_textField h).next fun description => ?_
  refine (below_texts (h.child _)).next fun preconditions => ?_
  exact (below_texts (h.child _)).next fun postconditions => below_pure _

end Logic

/-! ### Steps of workflows -/

namespace Steps

/-- Loading steps stays below their path, wherever that is. -/
def StepsStayBelow (steps : StepsLoader) : Prop :=
  ∀ (v : Value) (path : String), StaysBelow path (steps v path)

variable {steps : StepsLoader}

theorem StepsStayBelow.at (hsteps : StepsStayBelow steps) (h : Below base path) (v : Value) :
    StaysBelow base (steps v path) := ⟨fun hok => ((hsteps v path).notes hok).mono h⟩

theorem below_loadRetry {v : Value} (h : Below base path) : StaysBelow base (loadRetry v path) := by
  unfold loadRetry
  split
  · exact below_pure none
  · exact below_pure _
  · refine (below_checkShape h).next fun _ => (below_textField h).next fun backoff => ?_
    exact (below_textField h).next fun delay => below_pure _
  · exact below_reject h none

theorem below_loadTarget (hsteps : StepsStayBelow steps) {kind : ReferenceKind} {v : Value}
    (h : Below base path) : StaysBelow base (loadTarget steps kind v path) := by
  have hreject : StaysBelow base (do
      Load.report (.referenceError path
        (kind.label ++ " target " ++ (← Load.shown v) ++
          " is neither an operation name nor a nested step"))
      return (none : Option StepTarget)) :=
    (below_shown _).next fun _ => below_reject h none
  unfold loadTarget
  split
  · exact below_pure none
  · exact below_ite hreject ((below_defer h _ _ _).next fun _ => below_pure _)
  · exact below_ite ((hsteps.at h _).next fun _ => below_pure _) hreject
  · exact below_ite hreject ((hsteps.at h _).next fun _ => below_pure _)
  · exact hreject

theorem below_loadCall (hsteps : StepsStayBelow steps) {entries : Entries} (h : Below base path) :
    StaysBelow base (loadCall steps entries path) := by
  unfold loadCall
  dsimp only
  split
  · refine below_ite (below_reject (h.child _) none) ?_
    refine (below_defer (h.child _) _ _ _).next fun _ => ?_
    refine (below_textField h).next fun condition => ?_
    refine (below_loadRetry (h.child _)).next fun retry => ?_
    exact (below_loadTarget hsteps (h.child _)).next fun onError => below_pure _
  · exact below_reject (h.child _) none

theorem below_loadLoop (hsteps : StepsStayBelow steps) {entries : Entries} (h : Below base path) :
    StaysBelow base (loadLoop steps entries path) := by
  have hloop := h.child "loop"
  unfold loadLoop
  dsimp only
  split
  · refine (below_checkShape hloop).next fun _ => ?_
    refine (below_text (hloop.child _)).next fun collection => ?_
    refine (below_text (hloop.child _)).next fun condition => .perhaps hloop fun _ => ?_
    refine (hsteps.at (hloop.child _) _).next fun body => .perhaps hloop fun _ => ?_
    refine (below_textField hloop).next fun timeout => ?_
    exact (below_loadTarget hsteps (hloop.child _)).next fun onTimeout => below_pure _
  · exact below_reject hloop none

theorem below_loadParallel (hsteps : StepsStayBelow steps) {entries : Entries}
    (h : Below base path) : StaysBelow base (loadParallel steps entries path) := by
  have hspec := below_unwrapped (Entries.field entries "parallel") (h.child "parallel") "steps"
  unfold loadParallel
  dsimp only
  split
  · exact (hsteps.at hspec _).next fun body => .perhaps hspec fun _ => below_pure _
  · exact below_reject hspec none

theorem below_writtenCase {entries : Entries} (h : Below base path) :
    StaysBelow base (writtenCase entries path) := by
  unfold writtenCase
  split
  · exact below_pure _
  · exact (below_text (h.child _)).next fun condition => .perhaps h fun _ => below_pure _
  · exact below_reject h none

theorem path_writtenCase {entries : Entries} {written : WrittenCase} {notes : Notes}
    (h : writtenCase entries path = .ok (some written, notes)) : Below path written.bodyPath := by
  unfold writtenCase at h
  split at h
  · cases h
    exact (Below.refl path).child _
  · obtain ⟨_, _, _, -, h, -⟩ := load_bind_eq_ok.mp h
    dsimp only at h
    split at h
    · obtain ⟨_, _, _, -, h, -⟩ := load_bind_eq_ok.mp h
      cases h
      exact (Below.refl path).child _
    · cases h
      exact (Below.refl path).child _
  · obtain ⟨_, _, _, -, h, -⟩ := load_bind_eq_ok.mp h
    cases h

theorem below_loadCases (hsteps : StepsStayBelow steps) {closed : Bool}
    {items : List (Nat × Value)} (h : Below base path) :
    StaysBelow base (loadCases steps path closed items) := by
  induction items generalizing closed with
  | nil => exact below_pure []
  | cons item items ih =>
      obtain ⟨index, v⟩ := item
      have hcase := h.item index
      unfold loadCases
      dsimp only
      split
      · refine (below_writtenCase hcase).bind fun written? _ hwritten => ?_
        cases written? with
        | none => exact ih
        | some written =>
            refine .perhaps hcase fun _ => ?_
            refine (hsteps.at (hcase.trans (path_writtenCase hwritten)) _).next fun body => ?_
            exact ih.next fun more => below_pure _
      · exact (below_report hcase).next fun _ => ih

theorem below_loadBranch (hsteps : StepsStayBelow steps) {entries : Entries} (h : Below base path) :
    StaysBelow base (loadBranch steps entries path) := by
  have hbranch := h.child "branch"
  unfold loadBranch
  dsimp only
  split
  · exact (below_loadCases hsteps hbranch).next fun cases => below_pure _
  · exact below_reject hbranch none

theorem below_loadWait (hsteps : StepsStayBelow steps) {entries : Entries} (h : Below base path) :
    StaysBelow base (loadWait steps entries path) := by
  have hwait := h.child "wait"
  unfold loadWait
  dsimp only
  split
  · exact below_pure _
  · exact (below_shown _).next fun _ => below_pure _
  · exact below_pure _
  · refine (below_checkShape hwait).next fun _ => (below_textField hwait).next fun duration => ?_
    refine (below_text (hwait.child _)).next fun condition => .perhaps hwait fun _ => ?_
    refine (below_textField hwait).next fun timeout => ?_
    exact (below_loadTarget hsteps (hwait.child _)).next fun onTimeout => below_pure _
  · exact below_reject hwait none

theorem below_loadStep (hsteps : StepsStayBelow steps) {v : Value} (h : Below base path) :
    StaysBelow base (loadStep steps v path) := by
  unfold loadStep
  dsimp only
  split
  · refine below_ite (below_reject h none) ?_
    exact (below_defer h _ _ _).next fun _ => below_pure _
  · split
    · exact below_loadCall hsteps h
    · exact below_loadLoop hsteps h
    · exact below_loadParallel hsteps h
    · exact below_loadBranch hsteps h
    · exact below_loadWait hsteps h
    · exact below_reject h none
  · exact below_reject h none

theorem below_loadBody (hsteps : StepsStayBelow steps) : StepsStayBelow (loadBody steps) := by
  intro v path
  have h := Below.refl path
  unfold loadBody
  split
  · exact below_pure []
  · exact (below_loadStep hsteps h).next fun _ => below_pure _
  · exact below_eachSome fun p _ => below_loadStep hsteps (h.item p.1)
  · exact below_reject h []

theorem below_loadWithin (depth : Nat) : StepsStayBelow (loadWithin depth) := by
  induction depth with
  | zero => exact fun _ _ => below_pure []
  | succ depth ih => exact below_loadBody ih

end Steps

theorem Workflows.below_finishWorkflow {name : String} {description trigger : Option String}
    {steps : List WorkflowStep} (h : Below base path) :
    StaysBelow base (finishWorkflow name path description trigger steps) := by
  unfold finishWorkflow
  exact .perhaps h fun _ => below_pure _

theorem Workflows.below_loadWorkflow : ItemStaysBelow loadWorkflow := by
  intro name body path
  have h := Below.refl path
  rw [loadWorkflow_eq]
  split
  · exact ((Steps.below_loadWithin _).at h _).next fun steps => below_finishWorkflow h
  · refine (below_textField h).next fun trigger => (below_textField h).next fun description => ?_
    exact ((Steps.below_loadWithin _).at (h.child _) _).next fun steps => below_finishWorkflow h
  · exact below_reject h none

end AppSpec
