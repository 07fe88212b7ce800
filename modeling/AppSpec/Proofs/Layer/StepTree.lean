import AppSpec.Proofs.Layer.StepDepth

/-!
What the steps of a workflow say of the value they are loaded from. Where nothing is reported each
part of the value that holds steps is in the tree, in its place and order. The one exception is a
case of a branch that has an `else` beside a condition: only what stands under `else` is loaded.
-/

namespace AppSpec

namespace Load

variable {α β : Type} {P : α → β → Prop}

/-! ### Loading without a diagnostic -/

/-- What is loaded when nothing is reported. -/
def Clean (x : Load α) (a : α) : Prop := ∃ notes, x = .ok (a, notes) ∧ notes.diagnostics = []

theorem clean_bind {x : Load α} {f : α → Load β} {b : β} :
    Clean (x >>= f) b ↔ ∃ a, Clean x a ∧ Clean (f a) b := by
  constructor
  · rintro ⟨notes, h, hclean⟩
    obtain ⟨a, first, rest, hx, hf, rfl⟩ := load_bind_eq_ok.mp h
    obtain ⟨hfirst, hrest⟩ := List.append_eq_nil_iff.mp hclean
    exact ⟨a, ⟨first, hx, hfirst⟩, ⟨rest, hf, hrest⟩⟩
  · rintro ⟨a, ⟨first, hx, hfirst⟩, ⟨rest, hf, hrest⟩⟩
    exact ⟨first ++ rest, load_bind_eq_ok.mpr ⟨a, first, rest, hx, hf, rfl⟩,
      List.append_eq_nil_iff.mpr ⟨hfirst, hrest⟩⟩

theorem clean_pure {a b : α} : Clean (pure a) b ↔ b = a := by
  constructor
  · rintro ⟨notes, h, -⟩
    cases h
    rfl
  · rintro rfl
    exact ⟨{}, rfl, rfl⟩

theorem not_clean_report {d : Diagnostic} {f : Unit → Load α} {a : α} :
    ¬ Clean (report d >>= f) a := by
  intro h
  obtain ⟨_, ⟨notes, hreport, hclean⟩, -⟩ := clean_bind.mp h
  cases hreport
  cases hclean

/-- Nothing is reported where a diagnostic is due in a certain case: the case is not there. -/
theorem clean_perhaps {c : Prop} [Decidable c] {d : Diagnostic} {f : Unit → Load α} {a : α} :
    Clean (if c then report d >>= f else f ()) a ↔ ¬ c ∧ Clean (f ()) a := by
  split
  · next hc => exact iff_of_false not_clean_report fun h => h.1 hc
  · next hc => exact (and_iff_right hc).symm

theorem not_clean_reject {d : Diagnostic} {o : Option α} : ¬ Clean (Steps.reject d) o :=
  not_clean_report

theorem clean_each {f : α → Load β} {as : List α} {bs : List β} :
    Clean (each f as) bs ↔ List.Forall₂ (fun a b => Clean (f a) b) as bs := by
  induction as generalizing bs with
  | nil => rw [each, clean_pure, List.forall₂_nil_left_iff]
  | cons a as ih =>
      rw [each, clean_bind, List.forall₂_cons_left_iff]
      refine exists_congr fun b => ?_
      rw [clean_bind]
      simp only [ih, clean_pure, exists_and_left]

theorem clean_eachSome {f : α → Load (Option β)} {as : List α} {bs : List β}
    (hf : ∀ a ∈ as, ∀ o, Clean (f a) o → ∃ b, o = some b ∧ P a b) (h : Clean (eachSome f as) bs) :
    List.Forall₂ P as bs := by
  obtain ⟨os, heach, hbs⟩ := clean_bind.mp h
  obtain rfl := clean_pure.mp hbs
  have hall := clean_each.mp heach
  clear h heach hbs
  induction hall with
  | nil => exact .nil
  | @cons a o as os ha _ ih =>
      obtain ⟨b, rfl, hb⟩ := hf a List.mem_cons_self o ha
      exact .cons hb (ih fun a ha => hf a (List.mem_cons_of_mem _ ha))

theorem map_snd_indexed (as : List α) : (indexed as).map (·.2) = as := by
  simp [indexed, List.map_map, Function.comp_def, List.zipIdx_map_fst]

theorem forall₂_indexed {as : List α} {bs : List β}
    (h : List.Forall₂ (fun p b => P p.2 b) (indexed as) bs) : List.Forall₂ P as bs := by
  rw [← map_snd_indexed as]
  exact List.forall₂_map_left_iff.mpr h

/-! ### Texts -/

/-- What a value says where a text is expected. -/
inductive Says : Value → Option String → Prop
  | nothing : Says .null none
  | bool (b : Bool) : Says (.bool b) (some (if b then "true" else "false"))
  | str (s : String) : Says (.str s) (some s)
  | int (n : Int) : Says (.int n) (some (Value.int n).text)
  | float (x : Float) : Says (.float x) (some (Value.float x).text)

theorem says_text {v : Value} {path : String} {o : Option String} (h : Clean (text v path) o) :
    Says v o := by
  unfold text at h
  split at h
  · obtain rfl := clean_pure.mp h
    exact .nothing
  · obtain rfl := clean_pure.mp h
    exact .bool _
  · obtain rfl := clean_pure.mp h
    exact .str _
  · next n =>
      obtain ⟨s, hs, ho⟩ := clean_bind.mp h
      obtain rfl := clean_pure.mp ho
      unfold shown at hs
      split at hs
      · obtain ⟨_, hfail, -⟩ := hs
        cases hfail
      · obtain rfl := clean_pure.mp hs
        exact .int n
  · obtain rfl := clean_pure.mp h
    exact .float _
  · exact absurd h not_clean_report

theorem Says.eq_none_iff {v : Value} {o : Option String} (h : Says v o) : o = none ↔ v = .null := by
  cases h with
  | nothing => exact iff_of_true rfl rfl
  | _ => exact iff_of_false nofun nofun

end Load

namespace BranchCase

def condition : BranchCase → Option String
  | .mk condition _ => condition

def body : BranchCase → List WorkflowStep
  | .mk _ body => body

end BranchCase

namespace Steps

open Load

/-! ### Trees of steps -/

mutual

/-- A step says what the value says. A retry policy holds no steps and is left open. -/
inductive StepOf : Value → WorkflowStep → Prop
  | name {s : String} (hs : s ≠ "") : StepOf (.str s) (.call s none none none)
  | call {entries : Entries} {operation : String} {condition : Option String}
      {retry : Option RetryPolicy} {onError : Option StepTarget}
      (hkey : present entries = ["call"]) (hne : operation ≠ "")
      (hcall : Entries.field entries "call" = .str operation)
      (hcondition : Says (Entries.field entries "condition") condition)
      (honError : TargetOf (Entries.field entries "on_error") onError) :
      StepOf (.dict entries) (.call operation condition retry onError)
  | loop {entries spec : Entries} {collection condition timeout : Option String}
      {body : List WorkflowStep} {onTimeout : Option StepTarget}
      (hkey : present entries = ["loop"]) (hspec : Entries.field entries "loop" = .dict spec)
      (hcollection : Says (either spec "over" "collection") collection)
      (hcondition : Says (either spec "while" "condition") condition)
      (hbody : BodyOf (Entries.field spec (bodyKey spec)) body)
      (htimeout : Says (Entries.field spec "timeout") timeout)
      (honTimeout : TargetOf (Entries.field spec "on_timeout") onTimeout) :
      StepOf (.dict entries)
        (.loop collection condition body (countOf (Entries.field spec "max_iterations")) timeout
          onTimeout)
  | parallel {entries : Entries} {path : String} {body : List WorkflowStep}
      (hkey : present entries = ["parallel"])
      (hbody : BodyOf (unwrapped (Entries.field entries "parallel") path "steps").1 body) :
      StepOf (.dict entries) (.parallel body)
  | branch {entries : Entries} {items : List Value} {cases : List BranchCase}
      (hkey : present entries = ["branch"])
      (hitems : Entries.field entries "branch" = .list items) (hne : items ≠ [])
      (hcases : List.Forall₂ CaseOf items cases) : StepOf (.dict entries) (.branch cases)
  | waitFor {entries : Entries} {duration : String} (hkey : present entries = ["wait"])
      (hduration : Says (Entries.field entries "wait") (some duration)) :
      StepOf (.dict entries) (.wait (some duration) none none none)
  | wait {entries spec : Entries} {duration condition timeout : Option String}
      {onTimeout : Option StepTarget}
      (hkey : present entries = ["wait"]) (hspec : Entries.field entries "wait" = .dict spec)
      (hduration : Says (Entries.field spec "duration") duration)
      (hcondition : Says (either spec "until" "condition") condition)
      (htimeout : Says (Entries.field spec "timeout") timeout)
      (honTimeout : TargetOf (Entries.field spec "on_timeout") onTimeout) :
      StepOf (.dict entries) (.wait duration condition timeout onTimeout)

inductive TargetOf : Value → Option StepTarget → Prop
  | nothing : TargetOf .null none
  | operation {s : String} (hs : s ≠ "") : TargetOf (.str s) (some (.operation s))
  | steps {v : Value} {body : List WorkflowStep} (hv : v ≠ .null) (hbody : BodyOf v body) :
      TargetOf v (some (.steps body))

/-- A case has the body that stands under `else`, and then no condition, or else the body under
`then`, and the condition that `if` says. -/
inductive CaseOf : Value → BranchCase → Prop
  | otherwise {entries : Entries} {v : Value} {body : List WorkflowStep}
      (helse : Entries.text? entries "else" = some v) (hbody : BodyOf v body) :
      CaseOf (.dict entries) (.mk none body)
  | guarded {entries : Entries} {test : Value} {condition : Option String}
      {body : List WorkflowStep} (helse : Entries.text? entries "else" = none)
      (hif : Entries.text? entries "if" = some test) (hcondition : Says test condition)
      (hthen : Entries.field entries "then" ≠ .null)
      (hbody : BodyOf (Entries.field entries "then") body) :
      CaseOf (.dict entries) (.mk condition body)

inductive BodyOf : Value → List WorkflowStep → Prop
  | nothing : BodyOf .null []
  | one {entries : Entries} {step : WorkflowStep} (h : StepOf (.dict entries) step) :
      BodyOf (.dict entries) [step]
  | list {items : List Value} {steps : List WorkflowStep} (h : List.Forall₂ StepOf items steps) :
      BodyOf (.list items) steps

end

variable {n : Nat} {steps : StepsLoader} {entries : Entries} {v : Value} {path : String}

/-- What the loader gives for values that fit is said by them. -/
def Faithful (n : Nat) (steps : StepsLoader) : Prop :=
  ∀ {v : Value} {path : String} {body : List WorkflowStep}, Fits n v → Clean (steps v path) body →
    BodyOf v body

/-! ### Loaders -/

theorem targetOf_of_clean (hsteps : Faithful n steps) {kind : ReferenceKind} {o : Option StepTarget}
    (hv : Fits n v) (h : Clean (loadTarget steps kind v path) o) : TargetOf v o := by
  have hreject {o : Option StepTarget} : ¬ Clean (do
      report (.referenceError path
        (kind.label ++ " target " ++ (← shown v) ++
          " is neither an operation name nor a nested step"))
      return (none : Option StepTarget)) o := by
    intro h
    obtain ⟨_, -, h⟩ := clean_bind.mp h
    exact not_clean_report h
  have hbody {w : Value} (hw : Fits n w) (hne : w ≠ .null)
      (h : Clean (do return some (StepTarget.steps (← steps w path))) o) : TargetOf w o := by
    obtain ⟨body, hbody, ho⟩ := clean_bind.mp h
    obtain rfl := clean_pure.mp ho
    exact .steps hne (hsteps hw hbody)
  unfold loadTarget at h
  dsimp only at h
  split at h
  · obtain rfl := clean_pure.mp h
    exact .nothing
  · split at h
    · exact absurd h hreject
    · next hs =>
        obtain ⟨_, -, ho⟩ := clean_bind.mp h
        obtain rfl := clean_pure.mp ho
        exact .operation (by simpa using hs)
  · split at h
    · exact hbody hv nofun h
    · exact absurd h hreject
  · split at h
    · exact absurd h hreject
    · exact hbody hv nofun h
  · exact absurd h hreject

theorem stepOf_call (hsteps : Faithful n steps) (hn : Value.depthEntries entries ≤ n)
    (hkey : present entries = ["call"]) {o : Option WorkflowStep}
    (h : Clean (loadCall steps entries path) o) :
    ∃ step, o = some step ∧ StepOf (.dict entries) step := by
  unfold loadCall at h
  dsimp only at h
  split at h
  · next operation hcall =>
      split at h
      · exact absurd h not_clean_reject
      · next hne =>
          obtain ⟨_, -, h⟩ := clean_bind.mp h
          obtain ⟨condition, hcondition, h⟩ := clean_bind.mp h
          obtain ⟨retry, -, h⟩ := clean_bind.mp h
          obtain ⟨onError, honError, h⟩ := clean_bind.mp h
          exact ⟨_, clean_pure.mp h, .call hkey (by simpa using hne) hcall (says_text hcondition)
            (targetOf_of_clean hsteps (fits_field hn _) honError)⟩
  · exact absurd h not_clean_reject

theorem stepOf_loop (hsteps : Faithful n steps) (hn : Value.depthEntries entries ≤ n)
    (hkey : present entries = ["loop"]) {o : Option WorkflowStep}
    (h : Clean (loadLoop steps entries path) o) :
    ∃ step, o = some step ∧ StepOf (.dict entries) step := by
  have hfits := fits_field hn "loop"
  unfold loadLoop at h
  dsimp only at h
  split at h
  · next spec hspec =>
      rw [hspec] at hfits
      have hfield := fits_field hfits.depthEntries_lt.le
      obtain ⟨_, -, h⟩ := clean_bind.mp h
      obtain ⟨collection, hcollection, h⟩ := clean_bind.mp h
      obtain ⟨condition, hcondition, h⟩ := clean_bind.mp h
      obtain ⟨-, h⟩ := clean_perhaps.mp h
      obtain ⟨body, hbody, h⟩ := clean_bind.mp h
      obtain ⟨-, h⟩ := clean_perhaps.mp h
      obtain ⟨timeout, htimeout, h⟩ := clean_bind.mp h
      obtain ⟨onTimeout, honTimeout, h⟩ := clean_bind.mp h
      exact ⟨_, clean_pure.mp h, .loop hkey hspec (says_text hcollection) (says_text hcondition)
        (hsteps (hfield _) hbody) (says_text htimeout)
        (targetOf_of_clean hsteps (hfield _) honTimeout)⟩
  · exact absurd h not_clean_reject

theorem stepOf_parallel (hsteps : Faithful n steps) (hn : Value.depthEntries entries ≤ n)
    (hkey : present entries = ["parallel"]) {o : Option WorkflowStep}
    (h : Clean (loadParallel steps entries path) o) :
    ∃ step, o = some step ∧ StepOf (.dict entries) step := by
  have hfits : Fits n (unwrapped (Entries.field entries "parallel")
      (Path.child path "parallel") "steps").1 := fits_unwrapped (fits_field hn "parallel")
  unfold loadParallel at h
  dsimp only at h
  split at h
  · obtain ⟨body, hbody, h⟩ := clean_bind.mp h
    obtain ⟨-, h⟩ := clean_perhaps.mp h
    exact ⟨_, clean_pure.mp h, .parallel hkey (hsteps hfits hbody)⟩
  · exact absurd h not_clean_reject

theorem stepOf_wait (hsteps : Faithful n steps) (hn : Value.depthEntries entries ≤ n)
    (hkey : present entries = ["wait"]) {o : Option WorkflowStep}
    (h : Clean (loadWait steps entries path) o) :
    ∃ step, o = some step ∧ StepOf (.dict entries) step := by
  have hfits := fits_field hn "wait"
  unfold loadWait at h
  dsimp only at h
  split at h
  · next hspec =>
      exact ⟨_, clean_pure.mp h, .waitFor hkey (hspec ▸ .str _)⟩
  · next k hspec =>
      obtain ⟨text, htext, h⟩ := clean_bind.mp h
      have hduration : Clean (Load.text (.int k) path) (some text) :=
        clean_bind.mpr ⟨text, htext, clean_pure.mpr rfl⟩
      exact ⟨_, clean_pure.mp h, .waitFor hkey (hspec ▸ says_text hduration)⟩
  · next hspec =>
      exact ⟨_, clean_pure.mp h, .waitFor hkey (hspec ▸ .float _)⟩
  · next spec hspec =>
      rw [hspec] at hfits
      have hfield := fits_field hfits.depthEntries_lt.le
      obtain ⟨_, -, h⟩ := clean_bind.mp h
      obtain ⟨duration, hduration, h⟩ := clean_bind.mp h
      obtain ⟨condition, hcondition, h⟩ := clean_bind.mp h
      obtain ⟨-, h⟩ := clean_perhaps.mp h
      obtain ⟨timeout, htimeout, h⟩ := clean_bind.mp h
      obtain ⟨onTimeout, honTimeout, h⟩ := clean_bind.mp h
      exact ⟨_, clean_pure.mp h, .wait hkey hspec (says_text hduration) (says_text hcondition)
        (says_text htimeout) (targetOf_of_clean hsteps (hfield _) honTimeout)⟩
  · exact absurd h not_clean_reject

/-! ### Cases -/

/-- The body of a case that is written, and its condition, make a case that the value says. -/
theorem caseOf_of_clean {o : Option WrittenCase} (h : Clean (writtenCase entries path) o) :
    ∃ written, o = some written ∧
      ∀ body, BodyOf written.body body → CaseOf (.dict entries) (.mk written.condition body) := by
  unfold writtenCase at h
  split at h
  · next body helse =>
      exact ⟨_, clean_pure.mp h, fun _ hbody => .otherwise helse hbody⟩
  · next test helse hif =>
      obtain ⟨condition, hcondition, h⟩ := clean_bind.mp h
      obtain ⟨hthen, h⟩ := clean_perhaps.mp h
      refine ⟨_, clean_pure.mp h, fun _ hbody => ?_⟩
      refine .guarded helse hif (says_text hcondition) (fun hnull => hthen ?_) hbody
      rw [hnull]
      rfl
  · exact absurd h not_clean_reject

theorem clean_loadCases (hsteps : Faithful n steps) {closed : Bool} {items : List (Nat × Value)}
    (hn : ∀ p ∈ items, Fits n p.2) {cases : List BranchCase}
    (h : Clean (loadCases steps path closed items) cases) :
    List.Forall₂ (fun p case => CaseOf p.2 case) items cases ∧ (closed = true → cases = []) ∧
      ∀ case ∈ cases.dropLast, case.condition ≠ none := by
  induction items generalizing closed cases with
  | nil =>
      obtain rfl := clean_pure.mp h
      exact ⟨.nil, fun _ => rfl, nofun⟩
  | cons p items ih =>
      obtain ⟨index, v⟩ := p
      unfold loadCases at h
      dsimp only at h
      split at h
      · next entries =>
          have hentries := (hn _ List.mem_cons_self).depthEntries_lt.le
          obtain ⟨o, hclean, h⟩ := clean_bind.mp h
          obtain ⟨written, rfl, hcase⟩ := caseOf_of_clean hclean
          obtain ⟨_, hwritten, -⟩ := hclean
          obtain ⟨key, -, -, hkey⟩ := writtenCase_body hwritten
          obtain ⟨hopen, h⟩ := clean_perhaps.mp h
          obtain ⟨body, hbody, h⟩ := clean_bind.mp h
          obtain ⟨more, hmore, h⟩ := clean_bind.mp h
          obtain rfl := clean_pure.mp h
          obtain ⟨hcases, hclosed, hconditions⟩ := ih (fun q hq => hn q (List.mem_cons_of_mem _ hq))
            hmore
          have hfits : Fits n written.body := hkey ▸ fits_field hentries key
          refine ⟨.cons (hcase body (hsteps hfits hbody)) hcases, fun h => absurd h hopen, ?_⟩
          -- a case behind one without a condition would have been reported
          cases more with
          | nil => exact nofun
          | cons next more =>
              rw [List.dropLast_cons_of_ne_nil (List.cons_ne_nil _ _)]
              refine List.forall_mem_cons.mpr ⟨fun hnone => ?_, hconditions⟩
              have hnone : written.condition = none := hnone
              rw [hnone, Option.isNone_none, Bool.or_true] at hclosed
              cases hclosed rfl
      · exact absurd h not_clean_report

theorem clean_loadBranch (hsteps : Faithful n steps) (hn : Value.depthEntries entries ≤ n)
    {o : Option WorkflowStep} (h : Clean (loadBranch steps entries path) o) :
    ∃ items cases, Entries.field entries "branch" = .list items ∧ items ≠ [] ∧
      o = some (.branch cases) ∧ List.Forall₂ CaseOf items cases ∧
      ∀ case ∈ cases.dropLast, case.condition ≠ none := by
  have hfits := fits_field hn "branch"
  unfold loadBranch at h
  dsimp only at h
  split at h
  · next item items hspec =>
      rw [hspec] at hfits
      obtain ⟨cases, hcases, h⟩ := clean_bind.mp h
      obtain ⟨hall, -, hconditions⟩ := clean_loadCases hsteps (fun p hp => hfits.item hp) hcases
      exact ⟨_, cases, hspec, List.cons_ne_nil _ _, clean_pure.mp h, forall₂_indexed hall,
        hconditions⟩
  · exact absurd h not_clean_reject

theorem stepOf_branch (hsteps : Faithful n steps) (hn : Value.depthEntries entries ≤ n)
    (hkey : present entries = ["branch"]) {o : Option WorkflowStep}
    (h : Clean (loadBranch steps entries path) o) :
    ∃ step, o = some step ∧ StepOf (.dict entries) step := by
  obtain ⟨items, cases, hitems, hne, rfl, hcases, -⟩ := clean_loadBranch hsteps hn h
  exact ⟨_, rfl, .branch hkey hitems hne hcases⟩

/-! ### Steps within steps -/

theorem stepOf_of_clean (hsteps : Faithful n steps) (hv : Fits (n + 1) v) {o : Option WorkflowStep}
    (h : Clean (loadStep steps v path) o) : ∃ step, o = some step ∧ StepOf v step := by
  unfold loadStep at h
  dsimp only at h
  split at h
  · split at h
    · exact absurd h not_clean_reject
    · next hs =>
        obtain ⟨_, -, h⟩ := clean_bind.mp h
        exact ⟨_, clean_pure.mp h, .name (by simpa using hs)⟩
  · next entries =>
      have hn : Value.depthEntries entries ≤ n := Nat.le_of_lt_succ hv.depthEntries_lt
      split at h
      · next hkey => exact stepOf_call hsteps hn hkey h
      · next hkey => exact stepOf_loop hsteps hn hkey h
      · next hkey => exact stepOf_parallel hsteps hn hkey h
      · next hkey => exact stepOf_branch hsteps hn hkey h
      · next hkey => exact stepOf_wait hsteps hn hkey h
      · exact absurd h not_clean_reject
  · exact absurd h not_clean_reject

theorem faithful_loadBody (hsteps : Faithful n steps) : Faithful (n + 1) (loadBody steps) := by
  intro v path body hv h
  unfold loadBody at h
  split at h
  · obtain rfl := clean_pure.mp h
    exact .nothing
  · obtain ⟨o, ho, h⟩ := clean_bind.mp h
    obtain ⟨step, rfl, hstep⟩ := stepOf_of_clean hsteps hv ho
    obtain rfl := clean_pure.mp h
    exact .one hstep
  · exact .list (forall₂_indexed (clean_eachSome
      (fun p hp o ho => stepOf_of_clean hsteps (hv.item hp) ho) h))
  · exact absurd h not_clean_report

/-- Steps that are loaded without a diagnostic say what the value says, at every depth. -/
theorem faithful_loadWithin (n : Nat) : Faithful n (loadWithin n) := by
  induction n with
  | zero =>
      intro v path body hv h
      obtain rfl := hv.resolve_right (by have := depth_pos v; omega)
      rw [loadWithin_null] at h
      obtain rfl := clean_pure.mp h
      exact .nothing
  | succ n ih => exact faithful_loadBody ih

theorem bodyOf_load {body : List WorkflowStep} (h : Clean (load v path) body) : BodyOf v body :=
  faithful_loadWithin v.depth (.inr le_rfl) h

/-! ### Branches -/

/-- Either an `else` on its own, or a condition that is not null. -/
def InOneForm (item : Value) : Prop :=
  ∀ entries, item = .dict entries →
    if Entries.has entries "else" then
      Entries.has entries "if" = false ∧ Entries.has entries "then" = false
    else Entries.field entries "if" ≠ .null

/-- No condition only where there is an `else`, and every body that is written. -/
def Keeps (item : Value) (case : BranchCase) : Prop :=
  ∃ entries, item = .dict entries ∧
    (case.condition = none ↔ Entries.has entries "else" = true) ∧
    ∀ key ∈ ["then", "else"], ∀ v, Entries.text? entries key = some v → BodyOf v case.body

theorem CaseOf.keeps {case : BranchCase} (h : CaseOf v case) (hform : InOneForm v) :
    Keeps v case := by
  cases h with
  | @otherwise entries w body helse hbody =>
      have hhas : Entries.has entries "else" = true := Option.isSome_of_eq_some helse
      have hone := hform entries rfl
      rw [if_pos hhas] at hone
      have hthen : Entries.text? entries "then" = none := Option.isNone_iff_eq_none.mp
        (Option.isSome_eq_false_iff.mp hone.2)
      refine ⟨entries, rfl, iff_of_true rfl hhas, ?_⟩
      simp only [List.forall_mem_cons, hthen, helse, Option.some.injEq]
      refine ⟨nofun, ?_, nofun⟩
      rintro _ rfl
      exact hbody
  | @guarded entries test condition body helse hif hcondition hthen hbody =>
      have hhas : Entries.has entries "else" = false := by
        rw [Entries.has, helse, Option.isSome_none]
      have hone := hform entries rfl
      rw [hhas, if_neg Bool.false_ne_true, Entries.field, hif, Option.getD_some] at hone
      refine ⟨entries, rfl, ?_, ?_⟩
      · rw [hhas]
        exact iff_of_false (fun hnone => hone (hcondition.eq_none_iff.mp hnone)) Bool.false_ne_true
      · simp only [List.forall_mem_cons, helse]
        refine ⟨fun w hw => ?_, nofun, nofun⟩
        rwa [Entries.field, hw] at hbody

/-- The cases of a branch that is loaded without a diagnostic are those of the list, in its order,
and none but the last is without a condition. Where each is written in one form, one without a
condition is an `else`, and every body that is written is in the tree. -/
theorem loadBranch_tells (hn : Value.depthEntries entries ≤ n) {o : Option WorkflowStep}
    {notes : Notes} (h : loadBranch (loadWithin n) entries path = .ok (o, notes))
    (hclean : notes.diagnostics = []) :
    ∃ items cases, Entries.field entries "branch" = .list items ∧ items ≠ [] ∧
      o = some (.branch cases) ∧ List.Forall₂ CaseOf items cases ∧
      (∀ case ∈ cases.dropLast, case.condition ≠ none) ∧
      ((∀ item ∈ items, InOneForm item) → List.Forall₂ Keeps items cases) := by
  obtain ⟨items, cases, hitems, hne, ho, hcases, hconditions⟩ :=
    clean_loadBranch (faithful_loadWithin n) hn ⟨notes, h, hclean⟩
  refine ⟨items, cases, hitems, hne, ho, hcases, hconditions, fun hforms => ?_⟩
  clear hitems hne ho hconditions
  induction hcases with
  | nil => exact .nil
  | cons hcase _ ih =>
      obtain ⟨hform, hforms⟩ := List.forall_mem_cons.mp hforms
      exact .cons (hcase.keeps hform) (ih hforms)

def paidCases : List Value :=
  [.dict [(.str "if", .str "paid"),
      (.str "then", .list [.str "Ship", .dict [(.str "wait", .str "5m")]])],
    .dict [(.str "else", .dict [(.str "call", .str "Refund")])]]

theorem loadBranch_tells_paid :
    let entries : Entries := [(.str "branch", .list paidCases)]
    ∃ notes cases, loadBranch (loadWithin 5) entries "workflow.Pay[0]" =
        .ok (some (.branch cases), notes) ∧ notes.diagnostics = [] ∧
      Value.depthEntries entries ≤ 5 ∧ (∀ item ∈ paidCases, InOneForm item) ∧
      List.Forall₂ Keeps paidCases cases := by
  intro entries
  have hforms : ∀ item ∈ paidCases, InOneForm item := by
    refine List.forall_mem_cons.mpr ⟨?_, List.forall_mem_singleton.mpr ?_⟩
    · rintro _ ⟨⟩
      exact (nofun : Value.str "paid" ≠ .null)
    · rintro _ ⟨⟩
      exact And.intro rfl rfl
  have hload : ∃ o notes, loadBranch (loadWithin 5) entries "workflow.Pay[0]" = .ok (o, notes) ∧
      notes.diagnostics = [] := ⟨_, _, rfl, rfl⟩
  have hn : Value.depthEntries entries ≤ 5 := by decide
  obtain ⟨o, notes, hload, hclean⟩ := hload
  obtain ⟨items, cases, hitems, -, rfl, -, -, hkeeps⟩ := loadBranch_tells hn hload hclean
  obtain rfl : paidCases = items := Value.list.inj hitems
  exact ⟨notes, cases, hload, hclean, hn, hforms, hkeeps hforms⟩

theorem StepOf.operation {s operation : String}
    (h : StepOf (.str s) (.call operation none none none)) : operation = s := by
  cases h
  rfl

/-- Nothing is reported of a condition and its body beside an `else`, and both are lost; nor of a
condition that is null, and the case takes whatever comes. -/
theorem loadBranch_loses :
    let both : List Value := [.dict [(.str "if", .str "paid"), (.str "then", .list [.str "Ship"]),
      (.str "else", .list [.str "Refund"])]]
    let unguarded : List Value := [.dict [(.str "if", .null), (.str "then", .list [.str "Ship"])]]
    ∀ items ∈ [both, unguarded], ∃ notes cases,
      loadBranch (loadWithin 4) [(.str "branch", .list items)] "workflow.Pay[0]" =
          .ok (some (.branch cases), notes) ∧
        notes.diagnostics = [] ∧ ¬ List.Forall₂ Keeps items cases := by
  intro both unguarded
  refine List.forall_mem_cons.mpr ⟨⟨_, [.mk none [.call "Refund" none none none]], rfl, rfl, ?_⟩,
    List.forall_mem_singleton.mpr ⟨_, [.mk none [.call "Ship" none none none]], rfl, rfl, ?_⟩⟩
  · intro hkeeps
    obtain ⟨⟨_, ⟨⟩, -, hbodies⟩, -⟩ := List.forall₂_cons.mp hkeeps
    have hthen : BodyOf (.list [.str "Ship"]) [.call "Refund" none none none] :=
      hbodies "then" (by decide) _ rfl
    cases hthen with
    | list hsteps =>
        obtain ⟨hstep, -⟩ := List.forall₂_cons.mp hsteps
        exact absurd hstep.operation (by decide)
  · intro hkeeps
    obtain ⟨⟨_, ⟨⟩, hcondition, -⟩, -⟩ := List.forall₂_cons.mp hkeeps
    exact absurd (hcondition.mp rfl) (by decide)

end Steps

end AppSpec
