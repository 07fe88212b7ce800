import AppSpec.Layer.Domain
import AppSpec.Layer.Workflow
import AppSpec.Proofs.Outcome

/-!
Loaders taken apart. A loader succeeds as its steps do. What ends an entity or a workflow, once its
parts are there, is a loader of its own. A collection is loaded item after item, and each step does
one of four things.
-/

namespace AppSpec

namespace Load

variable {α β : Type}

theorem load_bind_eq_ok {x : Load α} {f : α → Load β} {b : β} {notes : Notes} :
    (x >>= f) = .ok (b, notes) ↔
      ∃ a first rest, x = .ok (a, first) ∧ f a = .ok (b, rest) ∧ notes = first ++ rest := by
  show Load.andThen x f = _ ↔ _
  constructor
  · intro h
    unfold andThen at h
    split at h
    · cases h
    · next a first =>
        split at h
        · cases h
        · next hf =>
            cases h
            exact ⟨a, first, _, rfl, hf, rfl⟩
  · rintro ⟨a, first, rest, rfl, hf, rfl⟩
    simp only [andThen, hf]
    rfl

@[simp]
theorem load_pure_bind (a : α) (f : α → Load β) : (pure a >>= f) = f a := by
  show Load.andThen (.ok (a, {})) f = f a
  unfold andThen
  dsimp only
  split
  · next h => exact h.symm
  · next h => exact h.symm

end Load

theorem Shape.exists_fault {shape : Shape} {entries : Entries} {path : String}
    {ds : List Diagnostic} (h : shape.check entries path = .ok ds) :
    ∀ d ∈ ds, ∃ field fault, d = diagnostic path field fault := by
  rw [check] at h
  split at h
  · cases h
  · cases h
    intro d hd
    obtain ⟨field, -, hd⟩ := List.mem_flatMap.mp hd
    obtain ⟨fault, -, rfl⟩ := List.mem_map.mp hd
    exact ⟨field.1, fault, rfl⟩

namespace Domain

/-- What is left to do once the fields of an entity are loaded. -/
def finishEntity (name path : String) (description : Option String) (validation : Value)
    (fields : Named EntityField) : Load (Option Entity) := do
  if fields.isEmpty then
    Load.report (.schemaWarning path ("entity '" ++ name ++ "' declares no fields"))
  return some ⟨name, description, fields, ← loadRules validation (Path.child path "validation")⟩

/-- An entity as its body gives it: with its fields under a key of their own, or in its place. -/
def loadBody (limit : Int) (name path : String) (entries : Entries) : Load (Option Entity) :=
  match Entries.field entries "fields" with
  | .dict fields => do
      Load.checkShape Shape.entity entries path
      let description ← Load.textField entries path "description"
      let fields ← loadFields limit fields (Path.child path "fields")
      finishEntity name path description (Entries.field entries "validation") fields
  | _ => do
      let fields ← loadFields limit entries path
      finishEntity name path none .null fields

theorem loadEntity_eq (limit : Int) (name : String) (body : Value) (path : String) :
    loadEntity limit name body path = (do
      match ← bodyEntries? body path ("entity '" ++ name ++ "' must be a mapping of fields") with
      | none => return none
      | some entries => loadBody limit name path entries) := by
  unfold loadEntity
  refine congrArg (bind _) (funext fun entries? => ?_)
  cases entries? with
  | none => rfl
  | some entries =>
      dsimp only [loadBody]
      generalize Entries.field entries "fields" = fields
      cases fields with
      | dict fields =>
          simp only [Load.load_pure_bind]
          rfl
      | _ =>
          simp only [Load.load_pure_bind]
          rfl

end Domain

namespace Workflows

/-- What is left to do once the steps of a workflow are loaded. -/
def finishWorkflow (name path : String) (description trigger : Option String)
    (steps : List WorkflowStep) : Load (Option Workflow) := do
  if steps.isEmpty then
    Load.report (.schemaWarning path ("workflow '" ++ name ++ "' has no steps"))
  return some ⟨name, description, trigger, steps⟩

theorem loadWorkflow_eq (name : String) (body : Value) (path : String) :
    loadWorkflow name body path =
      match body with
      | .list _ => do finishWorkflow name path none none (← Steps.load body path)
      | .dict entries => do
          let trigger ← Load.textField entries path "trigger"
          let description ← Load.textField entries path "description"
          let steps ← Steps.load (Entries.field entries "steps") (Path.child path "steps")
          finishWorkflow name path description trigger steps
      | _ => do
          Load.report
            (.syntaxError path ("workflow '" ++ name ++ "' must be a mapping or a list of steps"))
          return none := rfl

end Workflows

namespace Declared

variable {α : Type} {ns : Namespace} {define : α → Definition}
  {load : String → Value → String → Load (Option α)} {item : CollectionItem}
  {items : List CollectionItem} {s s' r : Declared α}

/-- What one step makes of an item: a report, an item that gives nothing, an item whose name is
taken, or an item that is kept. -/
inductive Stepped (ns : Namespace) (define : α → Definition)
    (load : String → Value → String → Load (Option α)) (s : Declared α) :
    CollectionItem → Declared α → Prop
  | malformed (d : Diagnostic) : Stepped ns define load s (.malformed d) (s.note { diagnostics := [d] })
  | empty {name : String} {body : Value} {path : String} {notes : Notes} {used : Symbols}
      (hload : load name body path = .ok (none, notes))
      (huses : useErrors s.symbols notes.errorUses = .ok used) :
      Stepped ns define load s (.named name body path) { s.note notes with symbols := used }
  | taken {name : String} {body : Value} {path : String} {a : α} {notes : Notes} {d : Diagnostic}
      {used symbols : Symbols} (hload : load name body path = .ok (some a, notes))
      (huses : useErrors s.symbols notes.errorUses = .ok used)
      (hdefine : used.define ns name (define a) path = .ok (some d, symbols)) :
      Stepped ns define load s (.named name body path)
        { (s.note notes).note { diagnostics := [d] } with symbols }
  | kept {name : String} {body : Value} {path : String} {a : α} {notes : Notes}
      {used symbols : Symbols} (hload : load name body path = .ok (some a, notes))
      (huses : useErrors s.symbols notes.errorUses = .ok used)
      (hdefine : used.define ns name (define a) path = .ok (none, symbols)) :
      Stepped ns define load s (.named name body path)
        { s.note notes with
          items := s.items.set name a, paths := s.paths.set name path, symbols }

theorem stepped (h : step ns define load item s = .ok s') : Stepped ns define load s item s' := by
  cases item with
  | malformed d =>
      cases h
      exact .malformed d
  | named name body path =>
      obtain ⟨⟨loaded, notes⟩, hload, h⟩ := bind_eq_ok.mp h
      obtain ⟨used, huses, h⟩ := bind_eq_ok.mp h
      cases loaded with
      | none =>
          cases h
          exact .empty hload huses
      | some a =>
          obtain ⟨⟨d, symbols⟩, hdefine, h⟩ := bind_eq_ok.mp h
          cases d with
          | some d =>
              cases h
              exact .taken hload huses hdefine
          | none =>
              cases h
              exact .kept hload huses hdefine

/-- What every step keeps, the run keeps. -/
theorem steps_keep {P : Declared α → Prop}
    (hstep : ∀ item ∈ items, ∀ s s', P s → step ns define load item s = .ok s' → P s') (h : P s)
    (hs : steps ns define load items s = .ok s') : P s' := by
  induction items generalizing s with
  | nil =>
      cases hs
      exact h
  | cons item items ih =>
      obtain ⟨between, hfirst, hs⟩ := bind_eq_ok.mp hs
      obtain ⟨hstep, hrest⟩ := List.forall_mem_cons.mp hstep
      exact ih hrest (hstep s between h hfirst) hs

/-- What every step keeps of two runs side by side, the runs keep. -/
theorem steps_side_by_side {R : Declared α → Declared α → Prop}
    (hstep : ∀ {item s s' r}, R s s' → step ns define load item s = .ok r →
      ∃ r', step ns define load item s' = .ok r' ∧ R r r') (h : R s s')
    (hs : steps ns define load items s = .ok r) :
    ∃ r', steps ns define load items s' = .ok r' ∧ R r r' := by
  induction items generalizing s s' with
  | nil =>
      cases hs
      exact ⟨s', rfl, h⟩
  | cons item items ih =>
      obtain ⟨between, hfirst, hs⟩ := bind_eq_ok.mp hs
      obtain ⟨between', hfirst', hbetween⟩ := hstep h hfirst
      obtain ⟨r', hs', hr⟩ := ih hbetween hs
      exact ⟨r', bind_eq_ok.mpr ⟨between', hfirst', hs'⟩, hr⟩

end Declared

end AppSpec
