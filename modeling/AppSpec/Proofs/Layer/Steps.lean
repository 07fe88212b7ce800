import AppSpec.Layer.Workflow
import AppSpec.Proofs.Layer.Deferral

/-!
Workflow steps record the operations they call, at every depth of nesting.
-/

namespace AppSpec

namespace Steps

open Load (Records records_pure records_none records_nil records_defer records_eachSome)

abbrev StepMentions (step : WorkflowStep) : Mentioning := fun spaces name =>
  spaces = [.operation] ∧ step.Calls name

abbrev TargetMentions (target : StepTarget) : Mentioning := fun spaces name =>
  spaces = [.operation] ∧ target.Calls name

def CaseMentions : BranchCase → Mentioning
  | .mk _ body => .ofList StepMentions body

def RecordsSteps (steps : StepsLoader) : Prop :=
  ∀ (v : Value) (path : String) (known : Mentioning),
    Records (steps v path) known (.ofList StepMentions)

variable {steps : StepsLoader} {known : Mentioning}

theorem records_reject (d : Diagnostic) : Records (reject d) known (.ofOption StepMentions) :=
  .after fun _ => records_none

theorem records_loadTarget (hsteps : RecordsSteps steps) {kind : ReferenceKind}
    (hkind : kind ≠ .field ∧ kind ≠ .mappingTarget) (v : Value) (path : String) :
    Records (loadTarget steps kind v path) known (.ofOption TargetMentions) := by
  have hinner : Records (do return some (.steps (← steps v path))) known (.ofOption TargetMentions) := by
    refine (hsteps v path _).bind fun body => records_pure ?_
    rintro spaces name ⟨_, h, rfl, hcall⟩
    cases h
    cases hcall with
    | steps hstep hcall => exact .inr ⟨_, hstep, rfl, hcall⟩
  have hreject (d : String → Diagnostic) :
      Records (do Load.report (d (← Load.shown v)); return none) known (.ofOption TargetMentions) :=
    .after fun _ => .after fun _ => records_none
  unfold loadTarget
  split
  · exact records_none
  · next s =>
      split
      · exact hreject _
      · refine (records_defer path s hkind (by simp)).bind fun _ => records_pure ?_
        rintro spaces name ⟨_, h, rfl, hcall⟩
        cases h
        cases hcall
        exact .inr ⟨rfl, rfl⟩
  · split
    · exact hinner
    · exact hreject _
  · split
    · exact hreject _
    · exact hinner
  · exact hreject _

theorem records_loadCall (hsteps : RecordsSteps steps) (entries : Entries) (path : String) :
    Records (loadCall steps entries path) known (.ofOption StepMentions) := by
  unfold loadCall
  dsimp only
  split
  · next operation _ =>
      split
      · exact records_reject _
      · refine (records_defer _ operation (by decide) (by decide)).bind fun _ => ?_
        refine .after fun condition => .after fun retry => ?_
        refine (records_loadTarget hsteps (by decide) _ _).bind fun onError => records_pure ?_
        rintro spaces name ⟨_, h, rfl, hcall⟩
        cases h
        cases hcall with
        | call => exact .inl (.inr ⟨rfl, rfl⟩)
        | onError hcall => exact .inr ⟨_, rfl, rfl, hcall⟩
  · exact records_reject _

theorem records_loadLoop (hsteps : RecordsSteps steps) (entries : Entries) (path : String) :
    Records (loadLoop steps entries path) known (.ofOption StepMentions) := by
  unfold loadLoop
  dsimp only
  split
  · next spec _ =>
      refine .after fun _ => .after fun collection => .after fun condition => .perhapsAfter fun _ => ?_
      refine (hsteps _ _ _).bind fun body => .perhapsAfter fun _ => .after fun timeout => ?_
      refine (records_loadTarget hsteps (by decide) _ _).bind fun onTimeout => records_pure ?_
      rintro spaces name ⟨_, h, rfl, hcall⟩
      cases h
      cases hcall with
      | loop hstep hcall => exact .inl (.inr ⟨_, hstep, rfl, hcall⟩)
      | loopTimeout hcall => exact .inr ⟨_, rfl, rfl, hcall⟩
  · exact records_reject _

theorem records_loadParallel (hsteps : RecordsSteps steps) (entries : Entries) (path : String) :
    Records (loadParallel steps entries path) known (.ofOption StepMentions) := by
  unfold loadParallel
  dsimp only
  split
  · refine (hsteps _ _ _).bind fun body => .perhapsAfter fun _ => records_pure ?_
    rintro spaces name ⟨_, h, rfl, hcall⟩
    cases h
    cases hcall with
    | parallel hstep hcall => exact .inr ⟨_, hstep, rfl, hcall⟩
  · exact records_reject _

theorem records_loadCases (hsteps : RecordsSteps steps) (path : String) (closed : Bool)
    (items : List (Nat × Value)) :
    Records (loadCases steps path closed items) known (.ofList CaseMentions) := by
  induction items generalizing closed known with
  | nil => exact records_nil
  | cons item items ih =>
      obtain ⟨index, v⟩ := item
      unfold loadCases
      dsimp only
      split
      · refine .after fun written => ?_
        cases written with
        | none => exact ih closed
        | some written =>
            refine .perhapsAfter fun _ => (hsteps _ _ _).bind fun body => (ih _).bind fun more => ?_
            refine records_pure ?_
            rintro spaces name ⟨case, hcase, hcall⟩
            rcases List.mem_cons.mp hcase with rfl | hcase
            · exact .inl (.inr hcall)
            · exact .inr ⟨case, hcase, hcall⟩
      · exact .after fun _ => ih closed

theorem records_loadBranch (hsteps : RecordsSteps steps) (entries : Entries) (path : String) :
    Records (loadBranch steps entries path) known (.ofOption StepMentions) := by
  unfold loadBranch
  dsimp only
  split
  · refine (records_loadCases hsteps _ _ _).bind fun cases => records_pure ?_
    rintro spaces name ⟨_, h, rfl, hcall⟩
    cases h
    cases hcall with
    | branch hcase hstep hcall => exact .inr ⟨_, hcase, _, hstep, rfl, hcall⟩
  · exact records_reject _

theorem not_calls_wait {duration condition timeout : Option String} {name : String} :
    ¬ (WorkflowStep.wait duration condition timeout none).Calls name := nofun

theorem records_loadWait (hsteps : RecordsSteps steps) (entries : Entries) (path : String) :
    Records (loadWait steps entries path) known (.ofOption StepMentions) := by
  have hplain {duration : Option String} :
      Records (pure (some (.wait duration none none none))) known (.ofOption StepMentions) := by
    refine records_pure ?_
    rintro spaces name ⟨_, h, rfl, hcall⟩
    cases h
    exact (not_calls_wait hcall).elim
  unfold loadWait
  dsimp only
  split
  · exact hplain
  · exact .after fun _ => hplain
  · exact hplain
  · next spec _ =>
      refine .after fun _ => .after fun duration => .after fun condition => .perhapsAfter fun _ => ?_
      refine .after fun timeout => ?_
      refine (records_loadTarget hsteps (by decide) _ _).bind fun onTimeout => records_pure ?_
      rintro spaces name ⟨_, h, rfl, hcall⟩
      cases h
      cases hcall with
      | waitTimeout hcall => exact .inr ⟨_, rfl, rfl, hcall⟩
  · exact records_reject _

theorem records_loadStep (hsteps : RecordsSteps steps) (v : Value) (path : String) :
    Records (loadStep steps v path) known (.ofOption StepMentions) := by
  unfold loadStep
  dsimp only
  split
  · next s =>
      split
      · exact records_reject _
      · refine (records_defer path s (by decide) (by decide)).bind fun _ => records_pure ?_
        rintro spaces name ⟨_, h, rfl, hcall⟩
        cases h
        cases hcall
        exact .inr ⟨rfl, rfl⟩
  · split
    · exact records_loadCall hsteps _ path
    · exact records_loadLoop hsteps _ path
    · exact records_loadParallel hsteps _ path
    · exact records_loadBranch hsteps _ path
    · exact records_loadWait hsteps _ path
    · exact records_reject _
  · exact records_reject _

theorem records_loadBody (hsteps : RecordsSteps steps) : RecordsSteps (loadBody steps) := by
  intro v path known
  unfold loadBody
  split
  · exact records_nil
  · refine (records_loadStep hsteps _ path).bind fun step => records_pure ?_
    rintro spaces name ⟨s, hs, hcall⟩
    exact .inr ⟨s, Option.mem_toList.mp hs, hcall⟩
  · exact records_eachSome (fun _ => records_loadStep hsteps _ _) _
  · exact .after fun _ => records_nil

theorem records_loadWithin (depth : Nat) : RecordsSteps (loadWithin depth) := by
  induction depth with
  | zero => exact fun _ _ _ => records_nil
  | succ depth ih => exact records_loadBody ih

end Steps

end AppSpec
