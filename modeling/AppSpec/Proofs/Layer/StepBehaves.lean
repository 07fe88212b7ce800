import AppSpec.Layer.Workflow
import AppSpec.Proofs.Layer.Behaves

/-!
Loading workflows: where the numbers are short all steps are loaded, at every depth of nesting, and
no diagnostic of them is fatal.
-/

namespace AppSpec

open Load (Behaves behaves_pure behaves_eachSome behaves_defer behaves_checkShape behaves_text
  behaves_textField behaves_shown behaves_ite mild_report mild_reject mild_perhaps)

variable {P : Prop}

namespace Steps

def BehavesSteps (P : Prop) (steps : StepsLoader) : Prop :=
  ∀ {v : Value} {path : String}, (P → v.Short) → Behaves P .notFatal (steps v path)

variable {steps : StepsLoader}

theorem behaves_either {entries : Entries} {key other : String} (h : P → entries.Short) :
    P → (either entries key other).Short := by
  intro hP
  rw [either]
  cases hkey : Entries.text? entries key with
  | none => exact (h hP).field other
  | some v => exact (h hP).text? hkey

theorem behaves_loadRetry {v : Value} {path : String} (h : P → v.Short) :
    Behaves P .notFatal (loadRetry v path) := by
  unfold loadRetry
  split
  · exact behaves_pure none
  · exact behaves_pure _
  · next entries =>
      have hentries (hP : P) : Entries.Short entries := Entries.short_dict (h hP)
      refine (behaves_checkShape fun _ =>
        Shape.untyped_of_no_texts (by decide) entries).next fun _ => ?_
      refine (behaves_textField hentries).next fun backoff => ?_
      exact (behaves_textField hentries).next fun delay => behaves_pure _
  · exact mild_reject nofun

theorem behaves_loadTarget (hsteps : BehavesSteps P steps) {kind : ReferenceKind} {v : Value}
    {path : String} (h : P → v.Short) : Behaves P .notFatal (loadTarget steps kind v path) := by
  have hreject : Behaves P .notFatal (do
      Load.report (.referenceError path
        (kind.label ++ " target " ++ (← Load.shown v) ++
          " is neither an operation name nor a nested step"))
      return (none : Option StepTarget)) :=
    (behaves_shown h).next fun _ => mild_reject nofun
  unfold loadTarget
  split
  · exact behaves_pure none
  · refine behaves_ite (fun _ => hreject) fun _ => ?_
    exact (behaves_defer trivial).next fun _ => behaves_pure _
  · refine behaves_ite (fun _ => ?_) fun _ => hreject
    exact (hsteps h).next fun _ => behaves_pure _
  · refine behaves_ite (fun _ => hreject) fun _ => ?_
    exact (hsteps h).next fun _ => behaves_pure _
  · exact hreject

theorem behaves_loadCall (hsteps : BehavesSteps P steps) {entries : Entries} {path : String}
    (h : P → entries.Short) : Behaves P .notFatal (loadCall steps entries path) := by
  unfold loadCall
  dsimp only
  split
  · refine behaves_ite (fun _ => mild_reject nofun) fun _ => ?_
    refine (behaves_defer trivial).next fun _ => ?_
    refine (behaves_textField h).next fun condition => ?_
    refine (behaves_loadRetry fun hP => (h hP).field _).next fun retry => ?_
    exact (behaves_loadTarget hsteps fun hP => (h hP).field _).next fun onError => behaves_pure _
  · exact mild_reject nofun

theorem behaves_loadLoop (hsteps : BehavesSteps P steps) {entries : Entries} {path : String}
    (h : P → entries.Short) : Behaves P .notFatal (loadLoop steps entries path) := by
  unfold loadLoop
  dsimp only
  split
  · next spec heq =>
      have hspec (hP : P) : Entries.Short spec := Entries.short_dict (heq ▸ (h hP).field "loop")
      refine (behaves_checkShape fun _ =>
        Shape.untyped_of_no_texts (by decide) spec).next fun _ => ?_
      refine (behaves_text (behaves_either hspec)).next fun collection => ?_
      refine (behaves_text (behaves_either hspec)).next fun condition => ?_
      refine mild_perhaps (by nofun) fun _ => ?_
      refine (hsteps fun hP => (hspec hP).field _).next fun body => ?_
      refine mild_perhaps (by nofun) fun _ => ?_
      refine (behaves_textField hspec).next fun timeout => ?_
      exact (behaves_loadTarget hsteps fun hP => (hspec hP).field _).next fun _ => behaves_pure _
  · exact mild_reject nofun

theorem behaves_loadParallel (hsteps : BehavesSteps P steps) {entries : Entries} {path : String}
    (h : P → entries.Short) : Behaves P .notFatal (loadParallel steps entries path) := by
  unfold loadParallel
  dsimp only
  split
  · refine (hsteps fun hP => short_unwrapped _ _ ((h hP).field _)).next fun body => ?_
    exact mild_perhaps (by nofun) fun _ => behaves_pure _
  · exact mild_reject nofun

theorem behaves_writtenCase {entries : Entries} {path : String} (h : P → entries.Short) :
    Behaves P .notFatal (writtenCase entries path) := by
  unfold writtenCase
  split
  · exact behaves_pure _
  · next htest =>
      refine (behaves_text fun hP => (h hP).text? htest).next fun condition => ?_
      exact mild_perhaps (by nofun) fun _ => behaves_pure _
  · exact mild_reject nofun

theorem short_writtenCase {entries : Entries} {path : String} {written : WrittenCase} {notes : Notes}
    (h : writtenCase entries path = .ok (some written, notes)) (hentries : entries.Short) :
    written.body.Short := by
  unfold writtenCase at h
  split at h
  · next helse =>
      cases h
      exact hentries.text? helse
  · obtain ⟨condition, _, _, -, h, -⟩ := Load.load_bind_eq_ok.mp h
    dsimp only at h
    split at h
    · obtain ⟨_, _, _, -, h, -⟩ := Load.load_bind_eq_ok.mp h
      cases h
      exact hentries.field "then"
    · cases h
      exact hentries.field "then"
  · obtain ⟨_, _, _, -, h, -⟩ := Load.load_bind_eq_ok.mp h
    cases h

theorem behaves_loadCases (hsteps : BehavesSteps P steps) {path : String} {closed : Bool}
    {items : List (Nat × Value)} (h : P → ∀ p ∈ items, p.2.Short) :
    Behaves P .notFatal (loadCases steps path closed items) := by
  induction items generalizing closed with
  | nil => exact behaves_pure []
  | cons item items ih =>
      obtain ⟨index, v⟩ := item
      have hrest (hP : P) : ∀ p ∈ items, p.2.Short := fun p hp => h hP p (List.mem_cons_of_mem _ hp)
      unfold loadCases
      dsimp only
      split
      · next entries =>
          have hentries (hP : P) : Entries.Short entries :=
            Entries.short_dict (h hP _ List.mem_cons_self)
          refine (behaves_writtenCase hentries).bind fun written notes hwritten => ?_
          cases written with
          | none => exact ih hrest
          | some written =>
              refine mild_perhaps (by nofun) fun _ => ?_
              refine (hsteps fun hP => short_writtenCase hwritten (hentries hP)).next fun body => ?_
              exact (ih hrest).next fun more => behaves_pure _
      · exact (mild_report (by nofun)).next fun _ => ih hrest

theorem behaves_loadBranch (hsteps : BehavesSteps P steps) {entries : Entries} {path : String}
    (h : P → entries.Short) : Behaves P .notFatal (loadBranch steps entries path) := by
  unfold loadBranch
  dsimp only
  split
  · next item items heq =>
      refine (behaves_loadCases hsteps fun hP p hp => ?_).next fun _ => behaves_pure _
      have hfield := (h hP).field "branch"
      rw [heq] at hfield
      cases hfield with
      | list hitems => exact hitems _ (Load.mem_indexed hp)
  · exact mild_reject nofun

theorem behaves_loadWait (hsteps : BehavesSteps P steps) {entries : Entries} {path : String}
    (h : P → entries.Short) : Behaves P .notFatal (loadWait steps entries path) := by
  unfold loadWait
  dsimp only
  split
  · exact behaves_pure _
  · next heq =>
      refine (behaves_shown fun hP => ?_).next fun _ => behaves_pure _
      have hfield := (h hP).field "wait"
      rwa [heq] at hfield
  · exact behaves_pure _
  · next spec heq =>
      have hspec (hP : P) : Entries.Short spec := Entries.short_dict (heq ▸ (h hP).field "wait")
      refine (behaves_checkShape fun _ =>
        Shape.untyped_of_no_texts (by decide) spec).next fun _ => ?_
      refine (behaves_textField hspec).next fun duration => ?_
      refine (behaves_text (behaves_either hspec)).next fun condition => ?_
      refine mild_perhaps (by nofun) fun _ => ?_
      refine (behaves_textField hspec).next fun timeout => ?_
      exact (behaves_loadTarget hsteps fun hP => (hspec hP).field _).next fun _ => behaves_pure _
  · exact mild_reject nofun

theorem behaves_loadStep (hsteps : BehavesSteps P steps) {v : Value} {path : String}
    (h : P → v.Short) : Behaves P .notFatal (loadStep steps v path) := by
  unfold loadStep
  dsimp only
  split
  · refine behaves_ite (fun _ => mild_reject (by rintro ⟨⟩)) fun _ => ?_
    exact (behaves_defer trivial).next fun _ => behaves_pure _
  · next entries =>
      have hentries (hP : P) : Entries.Short entries := Entries.short_dict (h hP)
      split
      · exact behaves_loadCall hsteps hentries
      · exact behaves_loadLoop hsteps hentries
      · exact behaves_loadParallel hsteps hentries
      · exact behaves_loadBranch hsteps hentries
      · exact behaves_loadWait hsteps hentries
      · exact mild_reject (by rintro ⟨⟩)
  · exact mild_reject (by rintro ⟨⟩)

theorem behaves_loadBody (hsteps : BehavesSteps P steps) : BehavesSteps P (loadBody steps) := by
  intro v path h
  unfold loadBody
  split
  · exact behaves_pure []
  · exact (behaves_loadStep hsteps h).next fun _ => behaves_pure _
  · refine behaves_eachSome fun p hp => behaves_loadStep hsteps fun hP => ?_
    cases h hP with
    | list hitems => exact hitems _ (Load.mem_indexed hp)
  · exact mild_reject nofun

theorem behaves_loadWithin (depth : Nat) : BehavesSteps P (loadWithin depth) := by
  induction depth with
  | zero => exact fun _ => behaves_pure []
  | succ depth ih => exact behaves_loadBody ih

end Steps

theorem Workflows.behaves_finishWorkflow {name path : String} {description trigger : Option String}
    {steps : List WorkflowStep} :
    Behaves P .notFatal (finishWorkflow name path description trigger steps) := by
  unfold finishWorkflow
  exact mild_perhaps (by nofun) fun _ => behaves_pure _

theorem Workflows.behaves_loadWorkflow {name : String} {body : Value} {path : String}
    (hbody : P → body.Short) : Behaves P .notFatal (loadWorkflow name body path) := by
  rw [loadWorkflow_eq]
  split
  · exact (Steps.behaves_loadWithin _ hbody).next fun steps => behaves_finishWorkflow
  · next entries =>
      have hentries (hP : P) : Entries.Short entries := Entries.short_dict (hbody hP)
      refine (behaves_textField hentries).next fun trigger => ?_
      refine (behaves_textField hentries).next fun description => ?_
      refine (Steps.behaves_loadWithin _ fun hP => (hentries hP).field _).next fun steps => ?_
      exact behaves_finishWorkflow
  · exact mild_reject nofun

end AppSpec
