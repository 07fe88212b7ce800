import AppSpec.Layer.Basic
import AppSpec.Proofs.Layer.Deferral

/-!
Items that cannot be read: where a loader returns nothing, it has reported an error.
-/

namespace AppSpec

namespace Load

variable {α β : Type}

/-- Where nothing comes out, an error tells why. -/
def Blames (x : Load (Option α)) : Prop :=
  ∀ notes, x = .ok (none, notes) → ∃ d ∈ notes.diagnostics, d.severity = .error

theorem Blames.after {x : Load β} {f : β → Load (Option α)} (h : ∀ b, (f b).Blames) :
    (x >>= f).Blames := by
  intro notes hnone
  obtain ⟨b, first, rest, -, hrest, rfl⟩ := load_bind_eq_ok.mp hnone
  obtain ⟨d, hd, herror⟩ := h b rest hrest
  exact ⟨d, List.mem_append_right _ hd, herror⟩

theorem Blames.bind {x : Load (Option β)} {f : Option β → Load (Option α)} (hx : x.Blames)
    (h : ∀ b, (f (some b)).Blames) : (x >>= f).Blames := by
  intro notes hnone
  obtain ⟨o, first, rest, hfirst, hrest, rfl⟩ := load_bind_eq_ok.mp hnone
  cases o with
  | none =>
      obtain ⟨d, hd, herror⟩ := hx first hfirst
      exact ⟨d, List.mem_append_left _ hd, herror⟩
  | some b =>
      obtain ⟨d, hd, herror⟩ := h b rest hrest
      exact ⟨d, List.mem_append_right _ hd, herror⟩

theorem blames_some (a : α) : (pure (some a) : Load (Option α)).Blames := by
  intro notes hnone
  cases hnone

theorem blames_reject {d : Diagnostic} (h : d.severity = .error) :
    (do report d; return none : Load (Option α)).Blames := by
  intro notes hnone
  cases hnone
  exact ⟨d, List.mem_singleton_self d, h⟩

end Load

open Load (Blames blames_some blames_reject)

theorem blames_bodyEntries {α : Type} {f : Option Entries → Load (Option α)}
    (h : ∀ entries, (f (some entries)).Blames) (body : Value) (path problem : String) :
    (bodyEntries? body path problem >>= f).Blames := by
  refine Blames.bind ?_ h
  unfold bodyEntries?
  split
  · exact blames_some _
  · exact blames_some _
  · exact blames_reject rfl

theorem Domain.blames_loadCustomType (limit : Int) (name : String) (body : Value) (path : String) :
    (loadCustomType limit name body path).Blames :=
  .after fun _ => blames_some _

theorem Domain.blames_finishEntity {name path : String} {description : Option String}
    {validation : Value} {fields : Named EntityField} :
    (finishEntity name path description validation fields).Blames := by
  unfold finishEntity
  dsimp only
  split
  · exact .after fun _ => .after fun _ => blames_some _
  · exact .after fun _ => blames_some _

theorem Domain.blames_loadEntity (limit : Int) (name : String) (body : Value) (path : String) :
    (loadEntity limit name body path).Blames := by
  rw [loadEntity_eq]
  refine blames_bodyEntries (fun entries => ?_) _ _ _
  dsimp only [loadBody]
  split
  · exact .after fun _ => .after fun _ => .after fun _ => blames_finishEntity
  · exact .after fun _ => blames_finishEntity

theorem Logic.blames_loadOperation (limit : Int) (name : String) (body : Value) (path : String) :
    (loadOperation limit name body path).Blames := by
  refine blames_bodyEntries (fun entries => ?_) _ _ _
  refine .after fun _ => .after fun _ => .after fun _ => .after fun _ => .after fun _ => ?_
  exact .after fun _ => .after fun _ => .after fun _ => blames_some _

theorem Components.blames_loadComponent (id : String) (body : Value) (path : String) :
    (loadComponent id body path).Blames := by
  refine blames_bodyEntries (fun entries => ?_) _ _ _
  refine .after fun _ => .after fun _ => .after fun _ => .after fun _ => .after fun _ => ?_
  exact .after fun _ => blames_some _

theorem Workflows.blames_finishWorkflow {name path : String} {description trigger : Option String}
    {steps : List WorkflowStep} : (finishWorkflow name path description trigger steps).Blames := by
  unfold finishWorkflow
  split
  · exact .after fun _ => blames_some _
  · exact blames_some _

theorem Workflows.blames_loadWorkflow (name : String) (body : Value) (path : String) :
    (loadWorkflow name body path).Blames := by
  rw [loadWorkflow_eq]
  split
  · exact .after fun _ => blames_finishWorkflow
  · exact .after fun _ => .after fun _ => .after fun _ => blames_finishWorkflow
  · exact blames_reject rfl

theorem Pages.blames_loadPage (name : String) (body : Value) (path : String) :
    (loadPage name body path).Blames := by
  refine blames_bodyEntries (fun entries => ?_) _ _ _
  refine .after fun _ => .after fun _ => .after fun _ => .after fun _ => .after fun _ => ?_
  exact blames_some _

theorem Security.blames_loadRole (name : String) (body : Value) (path : String) :
    (loadRole name body path).Blames :=
  blames_bodyEntries
    (fun _ => .after fun _ => .after fun _ => .after fun _ => blames_some _) _ _ _

theorem Infrastructure.blames_loadResource (id : String) (body : Value) (path : String) :
    (loadResource id body path).Blames := by
  unfold loadResource
  split
  · exact blames_some _
  · exact blames_some _
  · exact .after fun _ => .after fun _ => blames_some _
  · exact blames_reject rfl

theorem Integrations.blames_loadIntegration (id : String) (body : Value) (path : String) :
    (loadIntegration id body path).Blames := by
  refine blames_bodyEntries (fun entries => ?_) _ _ _
  exact .after fun _ => .after fun _ => .after fun _ => .after fun _ => .after fun _ => blames_some _

/-! ### Malformed items -/

theorem CollectionItem.severity_ofListItem {path : String} {p : Nat × Value} {d : Diagnostic}
    (h : ofListItem path p = .malformed d) : d.severity = .error := by
  rw [ofListItem] at h
  repeat' split at h
  all_goals cases h <;> rfl

theorem Shape.severity_check {shape : Shape} {entries : Entries} {path : String}
    {ds : List Diagnostic} (h : shape.check entries path = .ok ds) : ∀ d ∈ ds, d.severity = .error := by
  intro d hd
  obtain ⟨field, fault, rfl⟩ := exists_fault h d hd
  rfl

end AppSpec
