import AppSpec.Layer.Domain
import AppSpec.Proofs.Layer.Behaves

/-!
What entities report as malformed syntax: a body that is no mapping, and types that cannot be read.
The messages open in these two ways and in no other.
-/

namespace AppSpec

namespace Load

variable {α β : Type} {P : Diagnostic → Prop}

/-- All that is reported on loading has the property. -/
structure Reports (P : Diagnostic → Prop) (x : Load α) : Prop where
  all : ∀ {a notes}, x = .ok (a, notes) → ∀ d ∈ notes.diagnostics, P d

theorem Reports.bind {x : Load α} {f : α → Load β} (hx : Reports P x)
    (hf : ∀ a notes, x = .ok (a, notes) → Reports P (f a)) : Reports P (x >>= f) := by
  refine ⟨fun h d hd => ?_⟩
  obtain ⟨a, first, rest, ha, hb, rfl⟩ := load_bind_eq_ok.mp h
  rcases List.mem_append.mp hd with hd | hd
  · exact hx.all ha d hd
  · exact (hf a first ha).all hb d hd

theorem Reports.next {x : Load α} {f : α → Load β} (hx : Reports P x)
    (hf : ∀ a, Reports P (f a)) : Reports P (x >>= f) := hx.bind fun a _ _ => hf a

theorem reports_ok {a : α} {notes : Notes} (h : ∀ d ∈ notes.diagnostics, P d) :
    Reports P (.ok (a, notes)) := by
  refine ⟨fun hok => ?_⟩
  cases hok
  exact h

theorem reports_pure (a : α) : Reports P (pure a) := reports_ok (List.forall_mem_nil _)

theorem reports_lift (x : Except Failure α) : Reports P (lift x) := by
  cases x with
  | error e => exact ⟨nofun⟩
  | ok a => exact reports_pure a

theorem reports_reportAll {ds : List Diagnostic} (h : ∀ d ∈ ds, P d) : Reports P (reportAll ds) :=
  reports_ok h

theorem reports_reject {d : Diagnostic} (h : P d) (a : α) :
    Reports P (do report d; return a) :=
  (reports_reportAll (by simpa using h)).next fun _ => reports_pure a

theorem reports_ite {c : Prop} [Decidable c] {x y : Load α} (hx : Reports P x)
    (hy : Reports P y) : Reports P (if c then x else y) := by
  split
  · exact hx
  · exact hy

theorem Reports.perhaps {c : Prop} [Decidable c] {d : Diagnostic} (h : P d) {f : Unit → Load β}
    (hf : ∀ u, Reports P (f u)) : Reports P (if c then report d >>= f else f ()) :=
  reports_ite ((reports_reportAll (by simpa using h)).next hf) (hf ())

theorem reports_each {f : α → Load β} (hf : ∀ a, Reports P (f a)) (as : List α) :
    Reports P (each f as) := by
  induction as with
  | nil => exact reports_pure []
  | cons a as ih => exact (hf a).next fun b => ih.next fun bs => reports_pure _

theorem reports_eachSome {f : α → Load (Option β)} (hf : ∀ a, Reports P (f a)) (as : List α) :
    Reports P (eachSome f as) := (reports_each hf as).next fun _ => reports_pure _

theorem reports_keysWritable (entries : Entries) : Reports P (keysWritable entries) :=
  reports_ite ⟨nofun⟩ (reports_pure ())

theorem reports_shown (v : Value) : Reports P (shown v) := reports_ite ⟨nofun⟩ (reports_pure _)

end Load

open Load

namespace Domain

open ItemFault (opens_append)

/-- How the messages of an entity open that tell of malformed syntax. -/
def syntaxOpenings : List String := ["entity '", "invalid type expression '"]

def OpensKnown (d : Diagnostic) : Prop :=
  d.category = .syntaxError → ∃ text ∈ syntaxOpenings, text.toList <+: d.message.toList

variable {α : Type} {limit : Int} {path : String}

theorem opens_schema {d : Diagnostic} (h : d.category = .schema) : OpensKnown d := fun hsyntax => by
  rw [h] at hsyntax
  cases hsyntax

theorem opens_check {shape : Shape} {entries : Entries} {ds : List Diagnostic}
    (h : shape.check entries path = .ok ds) : ∀ d ∈ ds, OpensKnown d := by
  intro d hd
  obtain ⟨field, fault, rfl⟩ := Shape.exists_fault h d hd
  exact opens_schema rfl

theorem opens_text (v : Value) (path : String) : Reports OpensKnown (text v path) := by
  unfold text
  split
  · exact reports_pure _
  · exact reports_pure _
  · exact reports_pure _
  · exact (reports_shown _).next fun _ => reports_pure _
  · exact reports_pure _
  · exact reports_reject (opens_schema rfl) none

theorem opens_parse {text : String} {reading : TypeReading}
    (h : TypeExpr.parse text path limit = .ok reading) :
    ∀ d ∈ reading.diagnostics, OpensKnown d := by
  rw [TypeExpr.parse] at h
  split at h
  · cases h
    intro d hd
    obtain ⟨issue, -, rfl⟩ := List.mem_map.mp hd
    exact opens_schema rfl
  · next fault hread =>
      cases h
      intro d hd _
      rw [List.mem_singleton.mp hd]
      exact ⟨"invalid type expression '", by decide,
        (ItemFault.opens_faultReport path text _ fault).2⟩
  · cases h

theorem opens_typeText (text : String) : Reports OpensKnown (typeText limit text path) := by
  refine (reports_lift _).bind fun reading _ hreading => ?_
  refine (reports_reportAll (opens_parse (lift_eq_ok hreading))).next fun _ => ?_
  cases reading.expression with
  | none => exact reports_pure none
  | some t => exact (reports_ok (List.forall_mem_nil _)).next fun _ => reports_pure _

mutual

theorem opens_typeOf : ∀ (v : Value) (path : String), Reports OpensKnown (typeOf limit v path)
  | .scalar (.str s), path => by
      rw [typeOf]
      exact (opens_typeText s).next fun _ => reports_pure _
  | .dict entries, path => by
      rw [typeOf]
      refine (reports_keysWritable _).next fun _ => ?_
      exact (opens_fieldTypes entries path).next fun _ => reports_pure _
  | .scalar .null, _ => reports_reject (opens_schema rfl) _
  | .scalar (.bool _), _ => reports_reject (opens_schema rfl) _
  | .scalar (.int _), _ => reports_reject (opens_schema rfl) _
  | .scalar (.float _), _ => reports_reject (opens_schema rfl) _
  | .scalar (.date _), _ => reports_reject (opens_schema rfl) _
  | .scalar (.timestamp _), _ => reports_reject (opens_schema rfl) _
  | .scalar (.bytes _), _ => reports_reject (opens_schema rfl) _
  | .list _, _ => reports_reject (opens_schema rfl) _
  | .tuple _, _ => reports_reject (opens_schema rfl) _
  | .set _, _ => reports_reject (opens_schema rfl) _

theorem opens_fieldTypes : ∀ (entries : Entries) (path : String),
    Reports OpensKnown (fieldTypes limit entries path)
  | [], _ => by
      rw [fieldTypes]
      exact reports_pure []
  | (key, v) :: rest, path => by
      rw [fieldTypes]
      refine (opens_typeOf v _).next fun r => ?_
      exact (opens_fieldTypes rest path).next fun more => reports_pure _

end

theorem opens_loadFields (entries : Entries) (path : String) :
    Reports OpensKnown (loadFields limit entries path) := by
  refine (reports_keysWritable _).next fun _ => ?_
  refine (reports_each (fun e => ?_) entries).next fun _ => reports_pure _
  exact (opens_typeOf e.2 _).next fun _ => reports_pure _

theorem opens_checkExpression (expression path : String) :
    Reports OpensKnown (checkExpression expression path) :=
  reports_ite (reports_pure ()) (reports_reportAll (by simpa using opens_schema rfl))

theorem opens_loadRule (p : Nat × Value) : Reports OpensKnown (loadRule path p) := by
  unfold loadRule
  dsimp only
  split
  · exact (opens_checkExpression _ _).next fun _ => reports_pure _
  · refine (reports_lift _).bind fun problems _ hproblems => reports_ite ?_ ?_
    · refine (opens_text _ _).next fun description => ?_
      exact (opens_checkExpression _ _).next fun _ => reports_pure _
    · exact (reports_reportAll (opens_check (lift_eq_ok hproblems))).next fun _ => reports_pure none
  · exact (reports_shown _).next fun s => reports_reject (opens_schema rfl) none

theorem opens_loadRules (v : Value) (path : String) : Reports OpensKnown (loadRules v path) := by
  unfold loadRules
  split
  · exact reports_pure []
  · exact reports_eachSome opens_loadRule _
  · exact reports_reject (opens_schema rfl) []

theorem opens_bodyEntries {f : Option Entries → Load α} (body : Value) (name path : String)
    (hf : ∀ entries, Reports OpensKnown (f entries)) :
    Reports OpensKnown
      (bodyEntries? body path ("entity '" ++ name ++ "' must be a mapping of fields") >>= f) := by
  refine Reports.next ?_ hf
  unfold bodyEntries?
  split
  · exact reports_pure _
  · exact reports_pure _
  · refine reports_reject (fun _ => ⟨"entity '", List.mem_cons_self, ?_⟩) none
    exact opens_append (opens_append (List.prefix_refl _))

theorem opens_finishEntity {name path : String} {description : Option String} {validation : Value}
    {fields : Named EntityField} :
    Reports OpensKnown (finishEntity name path description validation fields) := by
  unfold finishEntity
  exact .perhaps (opens_schema rfl) fun _ => (opens_loadRules _ _).next fun _ => reports_pure _

/-- Whatever an entity reports as malformed syntax opens in one of the two ways. -/
theorem opens_loadEntity (limit : Int) (name : String) (body : Value) (path : String) :
    Reports OpensKnown (loadEntity limit name body path) := by
  rw [loadEntity_eq]
  refine opens_bodyEntries body name path fun entries? => ?_
  cases entries? with
  | none => exact reports_pure none
  | some entries =>
      dsimp only [loadBody]
      split
      · refine Reports.next ?_ fun _ => (opens_text _ _).next fun description => ?_
        · exact (reports_lift _).bind fun _ _ hds =>
            reports_reportAll (opens_check (lift_eq_ok hds))
        · exact (opens_loadFields _ _).next fun fields => opens_finishEntity
      · exact (opens_loadFields _ _).next fun fields => opens_finishEntity

end Domain

end AppSpec
