import AppSpec.Layer.Access
import AppSpec.Layer.Components
import AppSpec.Layer.Domain
import AppSpec.Layer.Logic
import AppSpec.Proofs.Layer.Behaves

/-!
Loading single items: a body with short numbers, none of whose lists of texts stands as a mapping
with an entry named `type`, is loaded, and all faults of it are such as items have.
-/

namespace AppSpec

open Load (Behaves behaves_pure behaves_report behaves_reportAll behaves_reject behaves_each
  behaves_eachSome behaves_defer behaves_useError behaves_checkShape behaves_text behaves_textField
  behaves_deferField behaves_keysWritable behaves_typeOf behaves_shown)

open ItemFault (opens_append)

variable {P : Prop} {π : Permitted}

theorem behaves_bodyEntries {α : Type} {f : Entries → Load (Option α)} {body : Value}
    {path problem : String} (hproblem : π.fault (.syntaxError path problem))
    (hbody : P → body.Short)
    (hf : ∀ entries, (P → entries.Short) →
      (∀ shape, Shape.UntypedBody shape body → Shape.Untyped shape entries) →
        Behaves P π (f entries)) :
    Behaves P π (do
      match ← bodyEntries? body path problem with
      | none => return none
      | some entries => f entries) := by
  unfold bodyEntries?
  split
  · rw [Load.load_pure_bind]
    exact hf [] (fun _ => Entries.short_nil) fun shape _ => Shape.untyped_nil shape
  · next entries =>
      rw [Load.load_pure_bind]
      exact hf entries (fun hP => Entries.short_dict (hbody hP)) fun shape h => h entries rfl
  · exact (behaves_reject hproblem none).bind fun entries? notes h => by
      obtain ⟨_, _, _, -, hnone, -⟩ := Load.load_bind_eq_ok.mp h
      cases hnone
      exact behaves_pure none

theorem Components.behaves_loadMembers {v : Value} (h : P → v.Short) :
    Behaves P π (loadMembers v) :=
  Load.behaves_guard (fun hP => by simp [Members.hasLongKey_eq_false (h hP)]) (behaves_pure _)

theorem Components.behaves_loadComponent {id : String} {body : Value} {path : String}
    (hbody : P → body.Short) (hshape : P → Shape.UntypedBody .component body) :
    Behaves P π (loadComponent id body path) := by
  refine behaves_bodyEntries ?_ hbody fun entries hentries huntyped => ?_
  · refine π.syntaxError "component '" (by decide) ?_ _
    exact opens_append (opens_append (List.prefix_refl _))
  · refine (behaves_checkShape fun hP => huntyped _ (hshape hP)).next fun _ => ?_
    refine (behaves_textField hentries).next fun description => ?_
    refine (behaves_deferField hentries rfl (by decide)).next fun responsibilities => ?_
    refine (behaves_deferField hentries rfl (by decide)).next fun dependencies => ?_
    refine (behaves_deferField hentries rfl (by decide)).next fun resources => ?_
    exact (behaves_loadMembers fun hP => (hentries hP).field _).next fun _ => behaves_pure _

theorem Pages.behaves_loadPage {name : String} {body : Value} {path : String}
    (hbody : P → body.Short) (hshape : P → Shape.UntypedBody .page body) :
    Behaves P π (loadPage name body path) := by
  refine behaves_bodyEntries ?_ hbody fun entries hentries huntyped => ?_
  · refine π.syntaxError "page '" (by decide) ?_ _
    exact opens_append (opens_append (List.prefix_refl _))
  · refine (behaves_checkShape fun hP => huntyped _ (hshape hP)).next fun _ => ?_
    refine (behaves_textField hentries).next fun description => ?_
    refine (behaves_deferField hentries rfl (by decide)).next fun displays => ?_
    refine (behaves_deferField hentries rfl (by decide)).next fun actions => ?_
    exact (behaves_deferField hentries rfl (by decide)).next fun roles => behaves_pure _

theorem Security.behaves_loadRole {name : String} {body : Value} {path : String}
    (hbody : P → body.Short) (hshape : P → Shape.UntypedBody .role body) :
    Behaves P π (loadRole name body path) := by
  refine behaves_bodyEntries ?_ hbody fun entries hentries huntyped => ?_
  · refine π.syntaxError "role '" (by decide) ?_ _
    exact opens_append (opens_append (List.prefix_refl _))
  · refine (behaves_checkShape fun hP => huntyped _ (hshape hP)).next fun _ => ?_
    refine (behaves_textField hentries).next fun description => ?_
    exact (behaves_deferField hentries rfl (by decide)).next fun inherits => behaves_pure _

/-! ### Custom types and entities -/

namespace Domain

variable {limit : Int}

theorem behaves_loadCustomType {name : String} {body : Value} {path : String}
    (hbody : P → body.Short) : Behaves P (.item limit False) (loadCustomType limit name body path) := by
  unfold loadCustomType
  refine (behaves_typeOf fun hP => ?_).next fun _ => behaves_pure _
  split
  · split
    · next entries s heq =>
        have htype := (Entries.short_dict (hbody hP)).field "type"
        rwa [heq] at htype
    · exact hbody hP
  · exact hbody hP

theorem behaves_loadFields {entries : Entries} {path : String} (h : P → entries.Short) :
    Behaves P (.item limit False) (loadFields limit entries path) := by
  refine (behaves_keysWritable h).next fun _ => ?_
  refine (behaves_each fun e he => ?_).next fun _ => behaves_pure _
  exact (behaves_typeOf fun hP => (h hP).values e he).next fun _ => behaves_pure _

theorem behaves_checkExpression {expression path : String} :
    Behaves P π (checkExpression expression path) := by
  refine Load.behaves_ite (fun _ => behaves_pure ()) fun _ => behaves_report ?_
  refine π.schemaWarning "malformed validation " (by decide) ?_ _
  exact opens_append (opens_append (by decide))

theorem behaves_loadRule {path : String} {p : Nat × Value} (h : P → p.2.Short) :
    Behaves P π (loadRule path p) := by
  unfold loadRule
  dsimp only
  split
  · exact behaves_checkExpression.next fun _ => behaves_pure _
  · next entries heq =>
      have hentries (hP : P) : Entries.Short entries := Entries.short_dict (heq ▸ h hP)
      refine (Load.behaves_lift fun _ => Load.check_eq_ok
        (Shape.untyped_of_no_texts (by decide) entries) _).bind fun problems _ hproblems => ?_
      refine Load.behaves_ite (fun _ => ?_) fun _ => ?_
      · refine (behaves_text fun hP => ?_).next fun description => ?_
        · cases hrule : Entries.text? entries "rule" with
          | none => exact (hentries hP).field "description"
          | some v => exact (hentries hP).text? hrule
        · exact behaves_checkExpression.next fun _ => behaves_pure _
      · refine (behaves_reportAll (Load.fault_misshapen (Load.lift_eq_ok hproblems))).next fun _ => ?_
        exact behaves_pure none
  · refine (behaves_shown h).next fun s => behaves_reject ?_ none
    exact π.schemaWarning "malformed validation " (by decide) (opens_append (by decide)) _

theorem behaves_loadRules {v : Value} {path : String} (h : P → v.Short) :
    Behaves P π (loadRules v path) := by
  unfold loadRules
  split
  · exact behaves_pure []
  · refine behaves_eachSome fun p hp => behaves_loadRule fun hP => ?_
    cases h hP with
    | list hitems => exact hitems _ (Load.mem_indexed hp)
  · exact behaves_reject (π.schemaError "validation must be " (by decide) (by decide) _) _

theorem behaves_finishEntity {name path : String} {description : Option String} {validation : Value}
    {fields : Named EntityField} (hrules : P → validation.Short) :
    Behaves P (.item limit False) (finishEntity name path description validation fields) := by
  unfold finishEntity
  refine Load.Behaves.perhaps ?_ fun _ => ?_
  · refine Permitted.schemaWarning _ "entity '" (by decide) ?_ _
    exact opens_append (opens_append (List.prefix_refl _))
  · exact (behaves_loadRules hrules).next fun _ => behaves_pure _

theorem behaves_loadEntity {name : String} {body : Value} {path : String} (hbody : P → body.Short) :
    Behaves P (.item limit False) (loadEntity limit name body path) := by
  rw [loadEntity_eq]
  refine behaves_bodyEntries ?_ hbody fun entries hentries _ => ?_
  · refine Permitted.syntaxError _ "entity '" (by decide) ?_ _
    exact opens_append (opens_append (List.prefix_refl _))
  dsimp only [loadBody]
  split
  · next fields heq =>
      have hfields (hP : P) : Entries.Short fields :=
        Entries.short_dict (heq ▸ (hentries hP).field "fields")
      refine (behaves_checkShape fun _ =>
        Shape.untyped_of_no_texts (by decide) entries).next fun _ => ?_
      refine (behaves_textField hentries).next fun description => ?_
      refine (behaves_loadFields hfields).next fun fields => ?_
      exact behaves_finishEntity fun hP => (hentries hP).field _
  · refine (behaves_loadFields hentries).next fun fields => ?_
    exact behaves_finishEntity fun _ => .scalar .null

end Domain

/-! ### Operations -/

namespace Logic

variable {limit : Int} {uses : Prop}

theorem behaves_listedParameter {path : String} {p : Nat × Value} (h : P → p.2.Short) :
    Behaves P π (listedParameter path p) := by
  unfold listedParameter
  extract_lets malformed
  have hmalformed : Behaves P π malformed :=
    behaves_reject (π.syntaxError "parameters must be " (by decide) (by decide) _) none
  split
  · next entries heq =>
      have hentries (hP : P) : Entries.Short entries := Entries.short_dict (heq ▸ h hP)
      split
      · next name type hname _ =>
          refine Load.behaves_guard (fun hP => ?_) (behaves_pure _)
          simp [Value.hasLongInteger_eq_false ((hentries hP).text? hname)]
      · exact (behaves_keysWritable hentries).next fun _ => behaves_pure _
      · exact hmalformed
  · exact hmalformed

theorem behaves_writtenParameters {v : Value} {path : String} (h : P → v.Short) :
    Behaves P π (writtenParameters v path) := by
  unfold writtenParameters
  split
  · exact (behaves_keysWritable fun hP => Entries.short_dict (h hP)).next fun _ => behaves_pure _
  · refine behaves_eachSome fun p hp => behaves_listedParameter fun hP => ?_
    cases h hP with
    | list hitems => exact hitems _ (Load.mem_indexed hp)
  · exact behaves_pure []

theorem short_listedParameter {path : String} {p : Nat × Value} {w : WrittenParameter}
    {notes : Notes} (h : listedParameter path p = .ok (some w, notes)) (hp : p.2.Short) :
    w.type.Short := by
  unfold listedParameter at h
  extract_lets malformed at h
  have hmalformed : malformed ≠ .ok (some w, notes) := by
    intro h
    obtain ⟨_, _, _, -, h, -⟩ := Load.load_bind_eq_ok.mp h
    cases h
  split at h
  · next entries heq =>
      rw [heq] at hp
      split at h
      · next name type _ htype =>
          split at h
          · cases h
          · cases h
            exact (Entries.short_dict hp).text? htype
      · next key type _ =>
          obtain ⟨_, _, _, -, h, -⟩ := Load.load_bind_eq_ok.mp h
          cases h
          exact (Entries.short_dict hp).values _ List.mem_cons_self
      · exact (hmalformed h).elim
  · exact (hmalformed h).elim

theorem short_writtenParameters {v : Value} {path : String} {written : List WrittenParameter}
    {notes : Notes} (h : writtenParameters v path = .ok (written, notes)) (hv : v.Short) :
    ∀ w ∈ written, w.type.Short := by
  intro w hw
  unfold writtenParameters at h
  split at h
  · obtain ⟨_, _, _, -, h, -⟩ := Load.load_bind_eq_ok.mp h
    cases h
    obtain ⟨e, he, rfl⟩ := List.mem_map.mp hw
    exact (Entries.short_dict hv).values e he
  · obtain ⟨p, hp, notes, hlisted⟩ := Load.mem_of_eachSome h hw
    cases hv with
    | list hitems => exact short_listedParameter hlisted (hitems _ (Load.mem_indexed hp))
  · cases h
    cases hw

theorem behaves_loadWritten {seen : List String} {written : List WrittenParameter}
    (h : P → ∀ w ∈ written, w.type.Short) :
    Behaves P (.item limit uses) (loadWritten limit seen written) := by
  induction written generalizing seen with
  | nil => exact behaves_pure []
  | cons w written ih =>
      have hrest (hP : P) : ∀ w ∈ written, w.type.Short := fun w hw =>
        h hP w (List.mem_cons_of_mem _ hw)
      refine Load.behaves_ite (fun _ => ?_) fun _ => ?_
      · refine (behaves_report ?_).next fun _ => ih hrest
        exact Permitted.opened _ (o := .repeated) (by decide)
          (opens_append (opens_append (List.prefix_refl _))) _
      · refine (behaves_typeOf fun hP => h hP w List.mem_cons_self).next fun r => ?_
        exact (ih hrest).next fun more => behaves_pure _

theorem behaves_loadParameters {v : Value} {path : String} (h : P → v.Short) :
    Behaves P (.item limit uses) (loadParameters limit v path) :=
  (behaves_writtenParameters h).bind fun _ _ hwritten =>
    behaves_loadWritten fun hP => short_writtenParameters hwritten (h hP)

theorem behaves_loadOutput {v : Value} {path : String} (h : P → v.Short) :
    Behaves P (.item limit uses) (loadOutput limit v path) := by
  unfold loadOutput
  split
  · exact behaves_pure _
  · exact behaves_typeOf h

theorem behaves_loadErrors {v : Value} {path : String} (hπ : π.uses) (h : P → v.Short) :
    Behaves P π (loadErrors v path) := by
  refine (Load.behaves_names h).next fun names => behaves_each fun p _ => ?_
  have hreference : π.reference ⟨p.2, p.1, [.error], .error⟩ := π.byKind ⟨rfl, nofun, nofun⟩
  refine (behaves_useError hπ _ _).next fun _ => ?_
  exact (behaves_defer hreference).next fun _ => behaves_pure _

theorem behaves_loadOperation {name : String} {body : Value} {path : String}
    (hbody : P → body.Short) (hshape : P → Shape.UntypedBody .operation body) :
    Behaves P (.item limit True) (loadOperation limit name body path) := by
  refine behaves_bodyEntries ?_ hbody fun entries hentries huntyped => ?_
  · refine Permitted.syntaxError _ "operation '" (by decide) ?_ _
    exact opens_append (opens_append (List.prefix_refl _))
  · have hfield (field : String) (hP : P) : (entries.field field).Short := (hentries hP).field field
    refine (behaves_checkShape fun hP => huntyped _ (hshape hP)).next fun _ => ?_
    refine (behaves_loadParameters (hfield _)).next fun inputs => ?_
    refine (behaves_loadOutput (hfield _)).next fun output => ?_
    refine (behaves_deferField hentries rfl (by decide)).next fun modifies => ?_
    refine (behaves_loadErrors trivial (hfield _)).next fun errors => ?_
    refine (behaves_textField hentries).next fun description => ?_
    refine (Load.behaves_texts (hfield _)).next fun preconditions => ?_
    exact (Load.behaves_texts (hfield _)).next fun postconditions => behaves_pure _

end Logic

end AppSpec
