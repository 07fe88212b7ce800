import AppSpec.Layer.Access
import AppSpec.Layer.Components
import AppSpec.Layer.Domain
import AppSpec.Layer.Logic
import AppSpec.Layer.Mapping
import AppSpec.Proofs.Layer.Steps

/-!
The items of the layers record their mentions.
-/

namespace AppSpec

open Load (Records records_pure records_none records_nil records_each records_eachSome
  records_defer records_deferField records_typeOf TypeMentions)

variable {known : Mentioning}

def RecordsItems {α : Type} (load : String → Value → String → Load (Option α))
    (mentions : α → Mentioning) : Prop :=
  ∀ (name : String) (body : Value) (path : String) (known : Mentioning),
    Records (load name body path) known (.ofOption mentions)

theorem records_bodyEntries {α : Type} {f : Entries → Load (Option α)} {mentions : α → Mentioning}
    (hf : ∀ entries, Records (f entries) known (.ofOption mentions)) (body : Value)
    (path problem : String) :
    Records (do
      match ← bodyEntries? body path problem with
      | none => return none
      | some entries => f entries) known (.ofOption mentions) := by
  refine .after fun entries? => ?_
  cases entries? with
  | none => exact records_none
  | some entries => exact hf entries

/-! ### Components, pages and roles -/

theorem Components.records_loadComponent : RecordsItems loadComponent Component.Mentions := by
  intro id body path known
  refine records_bodyEntries (fun entries => ?_) _ _ _
  refine .after fun _ => .after fun description => ?_
  refine (records_deferField _ _ _ (by decide) (by decide)).bind fun responsibilities => ?_
  refine (records_deferField _ _ _ (by decide) (by decide)).bind fun dependencies => ?_
  refine (records_deferField _ _ _ (by decide) (by decide)).bind fun resources => ?_
  refine .after fun exposes => records_pure ?_
  rintro spaces name ⟨_, h, hm⟩
  cases h
  cases hm with
  | responsibility h => exact .inl (.inl (.inr ⟨rfl, h⟩))
  | dependency h => exact .inl (.inr ⟨rfl, h⟩)
  | resource h => exact .inr ⟨rfl, h⟩

theorem Pages.records_loadPage : RecordsItems loadPage Page.Mentions := by
  intro page body path known
  refine records_bodyEntries (fun entries => ?_) _ _ _
  refine .after fun _ => .after fun description => ?_
  refine (records_deferField _ _ _ (by decide) (by decide)).bind fun displays => ?_
  refine (records_deferField _ _ _ (by decide) (by decide)).bind fun actions => ?_
  refine (records_deferField _ _ _ (by decide) (by decide)).bind fun roles => records_pure ?_
  rintro spaces name ⟨_, h, hm⟩
  cases h
  cases hm with
  | display h => exact .inl (.inl (.inr ⟨rfl, h⟩))
  | action h => exact .inl (.inr ⟨rfl, h⟩)
  | role h => exact .inr ⟨rfl, h⟩

theorem Security.records_loadRole : RecordsItems loadRole Role.Mentions := by
  intro role body path known
  refine records_bodyEntries (fun entries => ?_) _ _ _
  refine .after fun _ => .after fun description => ?_
  refine (records_deferField _ _ _ (by decide) (by decide)).bind fun inherits => records_pure ?_
  rintro spaces name ⟨_, h, hm⟩
  cases h
  cases hm with
  | inherits h => exact .inr ⟨rfl, h⟩

/-! ### Permissions and access to fields -/

theorem Security.records_loadPermission (path : String) (p : Nat × Value) :
    Records (loadPermission path p) known (.ofOption Permission.Mentions) := by
  unfold loadPermission
  dsimp only
  split
  · refine .after fun _ => ?_
    split
    · split
      · exact records_none
      · refine (records_defer _ _ (by decide) (by decide)).bind fun _ => ?_
        refine (records_deferField _ _ _ (by decide) (by decide)).bind fun roles => ?_
        refine .after fun rateLimit => .after fun filter => records_pure ?_
        rintro spaces name ⟨_, h, hm⟩
        cases h
        cases hm with
        | action => exact .inl (.inr ⟨rfl, rfl⟩)
        | role h => exact .inr ⟨rfl, h⟩
    · exact records_none
  · exact .after fun _ => records_none

theorem Security.records_loadFieldAccess (path : String) (p : Nat × Value) :
    Records (loadFieldAccess path p) known (.ofOption FieldAccess.Mentions) := by
  unfold loadFieldAccess
  dsimp only
  split
  · refine .after fun problems => ?_
    split
    · refine .after fun _ => ?_
      refine (records_deferField _ _ _ (by decide) (by decide)).bind fun readRoles => ?_
      refine (records_deferField _ _ _ (by decide) (by decide)).bind fun writeRoles => ?_
      refine records_pure ?_
      rintro spaces name ⟨_, h, hm⟩
      cases h
      cases hm with
      | read h => exact .inl (.inr ⟨rfl, h⟩)
      | write h => exact .inr ⟨rfl, h⟩
    · exact .after fun _ => records_none
  · exact .after fun _ => records_none

theorem Security.records_loadListed {α : Type} {load : String → Nat × Value → Load (Option α)}
    {mentions : α → Mentioning}
    (hload : ∀ path p, Records (load path p) known (.ofOption mentions)) (v : Value)
    (path problem : String) :
    Records (loadListed load v path problem) known (.ofList mentions) := by
  unfold loadListed
  split
  · exact records_nil
  · exact records_eachSome (hload path) _
  · exact .after fun _ => records_nil

theorem Security.records_loadPolicy (entries : Entries) (roles : Named Role) :
    Records (loadPolicy entries roles) known fun policy spaces name =>
      Mentioning.ofList Permission.Mentions policy.permissions spaces name ∨
        Mentioning.ofList FieldAccess.Mentions policy.fieldAccess spaces name := by
  unfold loadPolicy
  refine (records_loadListed records_loadPermission _ _ _).bind fun permissions => ?_
  refine (records_loadListed records_loadFieldAccess _ _ _).bind fun fieldAccess => ?_
  have hpolicy (authentication : Named Value) :
      Records (pure { roles, permissions, fieldAccess, authentication : SecurityPolicy })
        (fun spaces name =>
          (known spaces name ∨ Mentioning.ofList Permission.Mentions permissions spaces name) ∨
            Mentioning.ofList FieldAccess.Mentions fieldAccess spaces name)
        (fun policy spaces name =>
          Mentioning.ofList Permission.Mentions policy.permissions spaces name ∨
            Mentioning.ofList FieldAccess.Mentions policy.fieldAccess spaces name) := by
    refine records_pure ?_
    rintro spaces name (hm | hm)
    · exact .inl (.inr hm)
    · exact .inr hm
  dsimp only
  split <;> exact .after fun authentication => hpolicy authentication

theorem Security.loadPolicy_roles {entries : Entries} {roles : Named Role} {policy : SecurityPolicy}
    {notes : Notes} (h : loadPolicy entries roles = .ok (policy, notes)) : policy.roles = roles := by
  obtain ⟨permissions, _, _, -, h, -⟩ := Load.load_bind_eq_ok.mp h
  obtain ⟨fieldAccess, _, _, -, h, -⟩ := Load.load_bind_eq_ok.mp h
  dsimp only at h
  split at h
  · obtain ⟨authentication, _, _, -, h, -⟩ := Load.load_bind_eq_ok.mp h
    cases h
    rfl
  · obtain ⟨authentication, _, _, -, h, -⟩ := Load.load_bind_eq_ok.mp h
    cases h
    rfl

/-! ### Types, entities and operations -/

theorem Domain.records_loadCustomType (limit : Int) :
    RecordsItems (loadCustomType limit) CustomType.Mentions := by
  intro name body path known
  unfold loadCustomType
  refine (records_typeOf limit _ _).bind fun r => records_pure ?_
  rintro spaces name ⟨_, h, hm⟩
  cases h
  cases hm with
  | type ht hm => exact .inr ⟨_, ht, hm⟩

theorem Domain.records_loadField (limit : Int) (path : String) (e : Scalar × Value) :
    Records (loadField limit path e) known fun field => TypeMentions field.2.type :=
  (records_typeOf limit _ _).bind fun _ => records_pure fun _ _ => .inr

theorem Domain.records_loadFields (limit : Int) (entries : Entries) (path : String) :
    Records (loadFields limit entries path) known
      (.ofList fun field => TypeMentions field.2.type) := by
  refine .after fun _ => ?_
  refine (records_each (Domain.records_loadField limit path) entries).bind fun fields => ?_
  refine records_pure ?_
  rintro spaces name ⟨field, hfield, hm⟩
  exact .inr ⟨field, Named.mem_setAll_nil hfield, hm⟩

theorem Domain.records_finishEntity {name path : String} {description : Option String}
    {validation : Value} {fields : Named EntityField} :
    Records (finishEntity name path description validation fields)
      (fun spaces name => known spaces name ∨
        Mentioning.ofList (fun field => TypeMentions field.2.type) fields spaces name)
      (.ofOption Entity.Mentions) := by
  unfold finishEntity
  refine .perhapsAfter fun _ => .after fun rules => records_pure ?_
  rintro spaces name ⟨_, h, hm⟩
  cases h
  cases hm with
  | field hfield ht hm => exact .inr ⟨_, hfield, _, ht, hm⟩

theorem Domain.records_loadEntity (limit : Int) :
    RecordsItems (loadEntity limit) Entity.Mentions := by
  intro entity body path known
  rw [loadEntity_eq]
  refine records_bodyEntries (fun entries => ?_) _ _ _
  dsimp only [loadBody]
  split
  · refine .after fun _ => .after fun description => ?_
    exact (records_loadFields limit _ _).bind fun fields => records_finishEntity
  · exact (records_loadFields limit _ _).bind fun fields => records_finishEntity

theorem Logic.records_loadWritten (limit : Int) (seen : List String)
    (written : List WrittenParameter) :
    Records (loadWritten limit seen written) known (.ofList fun p => TypeMentions p.type) := by
  induction written generalizing seen known with
  | nil => exact records_nil
  | cons p written ih =>
      rw [loadWritten]
      split
      · exact .after fun _ => ih seen
      · refine (records_typeOf limit _ _).bind fun r => (ih _).bind fun more => records_pure ?_
        rintro spaces name ⟨q, hq, hm⟩
        rcases List.mem_cons.mp hq with rfl | hq
        · exact .inl (.inr hm)
        · exact .inr ⟨q, hq, hm⟩

theorem Logic.records_loadOutput (limit : Int) (v : Value) (path : String) :
    Records (loadOutput limit v path) known fun r => TypeMentions r.1 := by
  unfold loadOutput
  split
  · exact records_pure fun _ _ ⟨_, h, _⟩ => nomatch h
  · exact records_typeOf limit _ path

theorem Logic.records_loadOperation (limit : Int) :
    RecordsItems (loadOperation limit) Operation.Mentions := by
  intro operation body path known
  refine records_bodyEntries (fun entries => .after fun _ => ?_) _ _ _
  refine Records.bind (.after fun written => records_loadWritten limit [] written) fun inputs => ?_
  refine (records_loadOutput limit _ _).bind fun output => ?_
  refine (records_deferField _ _ _ (by decide) (by decide)).bind fun modifies => ?_
  refine .after fun errors => .after fun description => .after fun preconditions => ?_
  refine .after fun postconditions => records_pure ?_
  rintro spaces name ⟨_, h, hm⟩
  cases h
  cases hm with
  | input hp ht hm => exact .inl (.inl (.inr ⟨_, hp, _, ht, hm⟩))
  | output ht hm => exact .inl (.inr ⟨_, ht, hm⟩)
  | modifies h => exact .inr ⟨rfl, h⟩

/-! ### Workflows -/

theorem Workflows.records_finishWorkflow {name path : String} {description trigger : Option String}
    {steps : List WorkflowStep} :
    Records (finishWorkflow name path description trigger steps)
      (fun spaces name => known spaces name ∨
        Mentioning.ofList Steps.StepMentions steps spaces name)
      (.ofOption Workflow.Mentions) := by
  unfold finishWorkflow
  refine .perhapsAfter fun _ => records_pure ?_
  rintro spaces name ⟨_, h, hm⟩
  cases h
  cases hm with
  | step hstep hcall => exact .inr ⟨_, hstep, rfl, hcall⟩

theorem Workflows.records_loadWorkflow : RecordsItems loadWorkflow Workflow.Mentions := by
  intro workflow body path known
  rw [loadWorkflow_eq]
  split
  · exact (Steps.records_loadWithin _ _ _ _).bind fun steps => records_finishWorkflow
  · refine .after fun trigger => .after fun description => ?_
    exact (Steps.records_loadWithin _ _ _ _).bind fun steps => records_finishWorkflow
  · exact .after fun _ => records_none

/-! ### Mappings -/

namespace Mapping

abbrev KeyMentions (s : Entries) : Mentioning := fun spaces name =>
  spaces = [.operation] ∧ name ∈ s.entries.keys

theorem records_bindTarget (operation : String) (target : Value) (path : String) {s : Entries}
    (hs : ∀ spaces name, KeyMentions s spaces name → known spaces name) :
    Records (bindTarget operation target path s) known KeyMentions := by
  unfold bindTarget
  extract_lets accept
  have hbound (target : Option String) :
      Records (pure (⟨s.entries ++ [(operation, ⟨operation, target⟩)],
          s.paths ++ [(operation, path)]⟩ : Entries))
        (fun spaces name => known spaces name ∨ spaces = [.operation] ∧ name = operation)
        KeyMentions := by
    refine records_pure ?_
    rintro spaces name ⟨rfl, hname⟩
    rw [Named.keys, List.map_append, List.mem_append] at hname
    rcases hname with hname | hname
    · exact .inl (hs _ _ ⟨rfl, hname⟩)
    · exact .inr ⟨rfl, List.mem_singleton.mp hname⟩
  have haccept (target : Option String) : Records (accept target) known KeyMentions := by
    unfold accept
    split
    · exact .after fun _ => records_pure hs
    · refine (records_defer path operation (by decide) (by decide)).bind fun _ => ?_
      cases target with
      | none => exact hbound none
      | some name => exact .after fun _ => hbound (some name)
  split
  · exact haccept none
  · exact haccept _
  · exact .after fun _ => records_pure hs

theorem records_bindEntries (entries : AppSpec.Entries) {s : Entries}
    (hs : ∀ spaces name, KeyMentions s spaces name → known spaces name) :
    Records (bindEntries entries s) known KeyMentions := by
  induction entries generalizing s known with
  | nil => exact records_pure hs
  | cons entry entries ih =>
      exact (records_bindTarget _ _ _ hs).bind fun _ => ih fun _ _ => .inr

theorem records_bindItem (index : Nat) (v : Value) {s : Entries}
    (hs : ∀ spaces name, KeyMentions s spaces name → known spaces name) :
    Records (bindItem index v s) known KeyMentions := by
  unfold bindItem
  dsimp only
  split
  · refine .after fun problems => ?_
    split
    · exact records_bindTarget _ _ _ hs
    · exact .after fun _ => records_pure hs
  · exact .after fun _ => records_pure hs

theorem records_bindItems (items : List (Nat × Value)) {s : Entries}
    (hs : ∀ spaces name, KeyMentions s spaces name → known spaces name) :
    Records (bindItems items s) known KeyMentions := by
  induction items generalizing s known with
  | nil => exact records_pure hs
  | cons item items ih =>
      exact (records_bindItem _ _ hs).bind fun _ => ih fun _ _ => .inr

theorem records_load (v : Value) : Records (load v) known (.ofOption KeyMentions) := by
  have hstart : ∀ spaces name, KeyMentions ⟨[], []⟩ spaces name → known spaces name :=
    fun _ _ ⟨_, h⟩ => nomatch h
  have hfinish {x : Load Entries} (hx : Records x known KeyMentions) :
      Records (do return some (← x)) known (.ofOption KeyMentions) := by
    refine hx.bind fun s => records_pure ?_
    rintro spaces name ⟨_, h, hm⟩
    cases h
    exact .inr hm
  unfold load
  split
  · exact .after fun _ => hfinish (records_bindEntries _ hstart)
  · exact hfinish (records_bindItems _ hstart)
  · exact .after fun _ => records_none

end Mapping

end AppSpec
