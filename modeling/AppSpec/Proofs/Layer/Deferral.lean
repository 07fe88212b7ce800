import AppSpec.Proofs.Layer.Loading
import AppSpec.Proofs.Named
import AppSpec.Proofs.Outcome
import AppSpec.Proofs.Reference.Mention

/-!
What loading defers. A loader records its mentions when each name that its outcome mentions is
either known to be deferred already or deferred by the loader itself.
-/

namespace AppSpec

abbrev Mentioning := List Namespace → String → Prop

namespace Mentioning

variable {α : Type}

def ofOption (mentions : α → Mentioning) (o : Option α) : Mentioning := fun spaces name =>
  ∃ a, o = some a ∧ mentions a spaces name

def ofList (mentions : α → Mentioning) (as : List α) : Mentioning := fun spaces name =>
  ∃ a ∈ as, mentions a spaces name

end Mentioning

structure DeferredReference.Asks (r : DeferredReference) (spaces : List Namespace)
    (name : String) : Prop where
  name_eq : r.name = name
  spaces_eq : r.spaces = spaces
  byName : r.kind ≠ .field ∧ r.kind ≠ .mappingTarget
  declarable : .error ∉ r.spaces

def Deferred (references : List DeferredReference) : Mentioning :=
  .ofList DeferredReference.Asks references

abbrev Notes.Defers (notes : Notes) : Mentioning := Deferred notes.references

theorem deferred_append {refs more : List DeferredReference} {spaces : List Namespace}
    {name : String} :
    Deferred (refs ++ more) spaces name ↔ Deferred refs spaces name ∨ Deferred more spaces name := by
  simp only [Deferred, Mentioning.ofList, List.mem_append, or_and_right, exists_or]

theorem Notes.defers_append {a b : Notes} {spaces : List Namespace} {name : String} :
    (a ++ b).Defers spaces name ↔ a.Defers spaces name ∨ b.Defers spaces name :=
  deferred_append

namespace Load

variable {α β : Type} {known : Mentioning}

def Records (x : Load α) (known : Mentioning) (mentions : α → Mentioning) : Prop :=
  ∀ a notes, x = .ok (a, notes) → ∀ spaces name, mentions a spaces name →
    known spaces name ∨ notes.Defers spaces name

theorem Records.deferred {x : Load α} {mentions : α → Mentioning}
    (h : Records x (fun _ _ => False) mentions) {a : α} {notes : Notes} (hx : x = .ok (a, notes))
    {spaces : List Namespace} {name : String} (hm : mentions a spaces name) :
    notes.Defers spaces name := (h a notes hx spaces name hm).resolve_left id

theorem Records.weaken {x : Load α} {less : Mentioning} {mentions mentions' : α → Mentioning}
    (h : Records x less mentions) (hknown : ∀ spaces name, less spaces name → known spaces name)
    (hmentions : ∀ a spaces name, mentions' a spaces name → mentions a spaces name) :
    Records x known mentions' := fun a notes hx spaces name hm =>
  (h a notes hx spaces name (hmentions a spaces name hm)).imp_left (hknown spaces name)

theorem Records.more {x : Load α} {mentions : α → Mentioning} (h : Records x known mentions)
    (extra : Mentioning) :
    Records x (fun spaces name => known spaces name ∨ extra spaces name) mentions :=
  h.weaken (fun _ _ => .inl) fun _ _ _ => id

theorem Records.bind {x : Load α} {f : α → Load β} {mentions : α → Mentioning}
    {mentions' : β → Mentioning} (hx : Records x known mentions)
    (hf : ∀ a, Records (f a) (fun spaces name => known spaces name ∨ mentions a spaces name)
      mentions') : Records (x >>= f) known mentions' := by
  intro b notes h spaces name hm
  obtain ⟨a, first, rest, ha, hb, rfl⟩ := load_bind_eq_ok.mp h
  rw [Notes.defers_append]
  rcases hf a b rest hb spaces name hm with (hknown | hfirst) | hrest
  · exact .inl hknown
  · exact (hx a first ha spaces name hfirst).imp_right .inl
  · exact .inr (.inr hrest)

theorem records_pure {a : α} {mentions : α → Mentioning}
    (h : ∀ spaces name, mentions a spaces name → known spaces name) :
    Records (pure a) known mentions := by
  intro b notes hb spaces name hm
  cases hb
  exact .inl (h spaces name hm)

theorem records_none {mentions : α → Mentioning} :
    Records (pure none) known (.ofOption mentions) :=
  records_pure fun _ _ ⟨_, h, _⟩ => nomatch h

theorem records_nil {mentions : α → Mentioning} :
    Records (pure []) known (.ofList mentions) :=
  records_pure fun _ _ ⟨_, h, _⟩ => nomatch h

theorem records_nothing (x : Load α) : Records x known fun _ _ _ => False :=
  fun _ _ _ _ _ h => h.elim

theorem Records.after {x : Load α} {f : α → Load β} {mentions : β → Mentioning}
    (hf : ∀ a, Records (f a) known mentions) : Records (x >>= f) known mentions :=
  (records_nothing x).bind fun a => (hf a).more _

theorem Records.perhapsAfter {c : Prop} [Decidable c] {x : Load Unit} {f : Unit → Load α}
    {mentions : α → Mentioning} (hf : ∀ u, Records (f u) known mentions) :
    Records (if c then x >>= f else f ()) known mentions := by
  split
  · exact .after hf
  · exact hf ()

theorem records_references (references : List DeferredReference) :
    Records (.ok ((), { references })) known fun _ => Deferred references := by
  intro _ notes h spaces name hm
  cases h
  exact .inr hm

theorem records_defer (path name : String) {kind : ReferenceKind} {spaces : List Namespace}
    (hkind : kind ≠ .field ∧ kind ≠ .mappingTarget) (hspaces : .error ∉ spaces) :
    Records (defer path name kind spaces) known fun _ spaces' name' =>
      spaces' = spaces ∧ name' = name := by
  refine (records_references [⟨path, name, spaces, kind⟩]).weaken (fun _ _ => id) ?_
  rintro _ _ _ ⟨rfl, rfl⟩
  exact ⟨_, List.mem_singleton_self _, rfl, rfl, hkind, hspaces⟩

theorem records_each {f : α → Load β} {mentions : β → Mentioning}
    (hf : ∀ a, Records (f a) known mentions) (as : List α) :
    Records (each f as) known (.ofList mentions) := by
  induction as with
  | nil => exact records_nil
  | cons a as ih =>
      refine (hf a).bind fun b => (ih.more _).bind fun bs => ?_
      refine records_pure fun spaces name ⟨c, hc, hm⟩ => ?_
      rcases List.mem_cons.mp hc with rfl | hc
      · exact .inl (.inr hm)
      · exact .inr ⟨c, hc, hm⟩

theorem records_eachSome {f : α → Load (Option β)} {mentions : β → Mentioning}
    (hf : ∀ a, Records (f a) known (.ofOption mentions)) (as : List α) :
    Records (eachSome f as) known (.ofList mentions) := by
  refine (records_each hf as).bind fun os => records_pure fun spaces name ⟨b, hb, hm⟩ => ?_
  exact .inr ⟨some b, by simpa using hb, b, rfl, hm⟩

theorem records_deferNames (v : Value) (path : String) {kind : ReferenceKind}
    {spaces : List Namespace} (hkind : kind ≠ .field ∧ kind ≠ .mappingTarget)
    (hspaces : .error ∉ spaces) :
    Records (deferNames v path kind spaces) known fun names spaces' name =>
      spaces' = spaces ∧ name ∈ names := by
  refine .after fun names => ?_
  have hone (p : String × String) :
      Records (do defer p.2 p.1 kind spaces; return p.1) known fun found spaces' name =>
        spaces' = spaces ∧ name = found :=
    (records_defer p.2 p.1 hkind hspaces).bind fun _ => records_pure fun _ _ => .inr
  refine (records_each hone names).weaken (fun _ _ => id) ?_
  rintro found _ name ⟨rfl, hname⟩
  exact ⟨name, hname, rfl, rfl⟩

theorem records_deferField (entries : Entries) (path field : String) {kind : ReferenceKind}
    {space : Namespace} (hkind : kind ≠ .field ∧ kind ≠ .mappingTarget) (hspace : .error ≠ space) :
    Records (deferField entries path field kind space) known fun names spaces name =>
      spaces = [space] ∧ name ∈ names :=
  records_deferNames _ _ hkind (by simpa using hspace)

end Load

/-! ### Types -/

theorem TypeExpr.mem_fieldNames {fields : List (String × TypeExpr)} {key : String} {t : TypeExpr}
    (h : (key, t) ∈ fields) : t.names ⊆ fieldNames fields := by
  induction fields with
  | nil => cases h
  | cons field fields ih =>
      intro mention hmention
      rw [fieldNames, List.mem_append]
      rcases List.mem_cons.mp h with rfl | h
      · exact .inl hmention
      · exact .inr (ih h hmention)

theorem TypeExpr.Mentions.mem_names {t : TypeExpr} {spaces : List Namespace} {name : String}
    (h : t.Mentions spaces name) (path : String) :
    ∃ mention ∈ t.names, (nameReference path mention).Asks spaces name := by
  induction h with
  | reference => exact ⟨_, List.mem_singleton_self _, rfl, rfl, by simp [nameReference],
      by simp [nameReference]⟩
  | custom => exact ⟨_, List.mem_singleton_self _, rfl, rfl, by simp [nameReference],
      by simp [nameReference]⟩
  | array _ ih => exact ih
  | key _ ih =>
      obtain ⟨mention, hmem, hasks⟩ := ih
      exact ⟨mention, List.mem_append_left _ hmem, hasks⟩
  | value _ ih =>
      obtain ⟨mention, hmem, hasks⟩ := ih
      exact ⟨mention, List.mem_append_right _ hmem, hasks⟩
  | optional _ ih => exact ih
  | field hfield _ ih =>
      obtain ⟨mention, hmem, hasks⟩ := ih
      exact ⟨mention, mem_fieldNames hfield hmem, hasks⟩

theorem TypeExpr.Mentions.mem_references {t : TypeExpr} {spaces : List Namespace} {name : String}
    (h : t.Mentions spaces name) (path : String) :
    ∃ r ∈ t.references path, r.Asks spaces name := by
  obtain ⟨mention, hmem, hasks⟩ := h.mem_names path
  exact ⟨_, List.mem_append_left _ (List.mem_map_of_mem hmem), hasks⟩

namespace Load

variable {known : Mentioning}

abbrev TypeMentions (type : Option TypeExpr) : Mentioning := .ofOption TypeExpr.Mentions type

theorem records_typeText (limit : Int) (text path : String) :
    Records (typeText limit text path) known TypeMentions := by
  refine .after fun reading => .after fun _ => ?_
  cases reading.expression with
  | none => exact records_none
  | some t =>
      refine (records_references (t.references path)).bind fun _ => records_pure ?_
      rintro spaces name ⟨_, h, hm⟩
      cases h
      exact .inr (hm.mem_references path)

theorem records_noType (d : Diagnostic) :
    Records (do report d; return ((none : Option TypeExpr), (none : Option String))) known fun r =>
      TypeMentions r.1 :=
  .after fun _ => records_pure fun _ _ ⟨_, h, _⟩ => nomatch h

mutual

theorem records_typeOf (limit : Int) : ∀ (v : Value) (path : String),
    Records (typeOf limit v path) known fun r => TypeMentions r.1
  | .scalar (.str s), path => by
      rw [typeOf]
      exact (records_typeText limit s path).bind fun _ => records_pure fun _ _ => .inr
  | .dict entries, path => by
      rw [typeOf]
      refine .after fun _ => (records_fieldTypes limit entries path).bind fun fields => ?_
      refine records_pure ?_
      rintro spaces name ⟨_, h, hm⟩
      cases h
      cases hm with
      | field hfield hm => exact .inr ⟨_, Named.mem_setAll_nil hfield, hm⟩
  | .scalar .null, _ => records_noType _
  | .scalar (.bool _), _ => records_noType _
  | .scalar (.int _), _ => records_noType _
  | .scalar (.float _), _ => records_noType _
  | .scalar (.date _), _ => records_noType _
  | .scalar (.timestamp _), _ => records_noType _
  | .scalar (.bytes _), _ => records_noType _
  | .list _, _ => records_noType _
  | .tuple _, _ => records_noType _
  | .set _, _ => records_noType _

theorem records_fieldTypes (limit : Int) : ∀ (entries : Entries) (path : String),
    Records (fieldTypes limit entries path) known (.ofList fun field => field.2.Mentions)
  | [], _ => by
      rw [fieldTypes]
      exact records_nil
  | (key, v) :: rest, path => by
      rw [fieldTypes]
      refine (records_typeOf limit v _).bind fun r => ?_
      refine ((records_fieldTypes limit rest path).more _).bind fun more => records_pure ?_
      rintro spaces name ⟨field, hfield, hm⟩
      cases hr : r.1 with
      | none =>
          simp only [hr] at hfield
          exact .inr ⟨field, hfield, hm⟩
      | some t =>
          simp only [hr] at hfield
          rcases List.mem_cons.mp hfield with rfl | hfield
          · exact .inl (.inr ⟨t, rfl, hm⟩)
          · exact .inr ⟨field, hfield, hm⟩

end

end Load

end AppSpec
