import AppSpec.Layer.Collection

/-!
The workflow layer. Steps nest to the depth of the value that holds them; each kind of step is
loaded by what loads the steps inside it.
-/

namespace AppSpec

namespace Value

mutual

def depth : Value → Nat
  | .list items => depthItems items + 1
  | .dict entries => depthEntries entries + 1
  | _ => 1

def depthItems : List Value → Nat
  | [] => 0
  | item :: rest => max item.depth (depthItems rest)

def depthEntries : Entries → Nat
  | [] => 0
  | (_, v) :: rest => max v.depth (depthEntries rest)

end

end Value

namespace Steps

def keywords : List String := ["call", "loop", "parallel", "branch", "wait"]

def present (entries : Entries) : List String := keywords.filter fun k => Entries.has entries k

abbrev StepsLoader := Value → String → Load (List WorkflowStep)

abbrev StepLoader := Entries → String → Load (Option WorkflowStep)

def reject {α : Type} (d : Diagnostic) : Load (Option α) := do
  Load.report d
  return none

/-- The value under the first of two keys that is there. -/
def either (entries : Entries) (key other : String) : Value :=
  (Entries.text? entries key).getD (Entries.field entries other)

def countOf : Value → Option Int
  | .int n => some n
  | _ => none

def loadRetry (v : Value) (path : String) : Load (Option RetryPolicy) :=
  match v with
  | .null => pure none
  | .int n => pure (some ⟨some n, none, none⟩)
  | .dict entries => do
      Load.checkShape Shape.retry entries path
      let backoff ← Load.textField entries path "backoff"
      let delay ← Load.textField entries path "delay"
      return some ⟨countOf (Entries.field entries "max_attempts"), backoff, delay⟩
  | _ => reject (.schemaError path "retry must be a mapping or a number of attempts")

def loadTarget (steps : StepsLoader) (kind : ReferenceKind) (v : Value) (path : String) :
    Load (Option StepTarget) :=
  let reject : Load (Option StepTarget) := do
    Load.report (.referenceError path
      (kind.label ++ " target " ++ (← Load.shown v) ++
        " is neither an operation name nor a nested step"))
    return none
  match v with
  | .null => pure none
  | .str s =>
      if s.isEmpty then reject
      else do
        Load.defer path s kind [.operation]
        return some (.operation s)
  | .dict entries =>
      if (present entries).length = 1 then return some (.steps (← steps v path)) else reject
  | .list items => if items.isEmpty then reject else return some (.steps (← steps v path))
  | _ => reject

def loadCall (steps : StepsLoader) : StepLoader := fun entries path => do
  let callPath := Path.child path "call"
  match Entries.field entries "call" with
  | .str operation =>
      if operation.isEmpty then
        reject (.syntaxError callPath "call target must be an operation name")
      else
        Load.defer callPath operation .call [.operation]
        let condition ← Load.textField entries path "condition"
        let retry ← loadRetry (Entries.field entries "retry") (Path.child path "retry")
        let onError ← loadTarget steps .onError (Entries.field entries "on_error")
          (Path.child path "on_error")
        return some (.call operation condition retry onError)
  | _ => reject (.syntaxError callPath "call target must be an operation name")

def bodyKey (entries : Entries) : String :=
  (["steps", "body", "do"].find? fun key => Entries.has entries key).getD "steps"

def loadLoop (steps : StepsLoader) : StepLoader := fun entries path => do
  let path := Path.child path "loop"
  match Entries.field entries "loop" with
  | .dict spec =>
      Load.checkShape Shape.loop spec path
      let collection ← Load.text (either spec "over" "collection") (Path.child path "over")
      let condition ← Load.text (either spec "while" "condition") (Path.child path "while")
      if collection.isNone && condition.isNone then
        Load.report (.schemaError path "loop needs a collection ('over') or a condition ('while')")
      let key := bodyKey spec
      let body ← steps (Entries.field spec key) (Path.child path key)
      if body.isEmpty then
        Load.report (.schemaWarning path "loop has an empty body")
      let timeout ← Load.textField spec path "timeout"
      let onTimeout ← loadTarget steps .onTimeout (Entries.field spec "on_timeout")
        (Path.child path "on_timeout")
      return some (.loop collection condition body (countOf (Entries.field spec "max_iterations"))
        timeout onTimeout)
  | _ => reject (.syntaxError path "loop must be a mapping")

def loadParallel (steps : StepsLoader) : StepLoader := fun entries path => do
  let (spec, path) := unwrapped (Entries.field entries "parallel") (Path.child path "parallel") "steps"
  match spec with
  | .list _ =>
      let body ← steps spec path
      if body.length < 2 then
        Load.report (.schemaWarning path "parallel block with fewer than two steps")
      return some (.parallel body)
  | _ => reject (.syntaxError path "parallel must list its steps")

/-- What a case of a branch says: its condition, and the value and path of its body. -/
structure WrittenCase where
  condition : Option String
  body : Value
  bodyPath : String

def writtenCase (entries : Entries) (path : String) : Load (Option WrittenCase) :=
  match Entries.text? entries "else", Entries.text? entries "if" with
  | some body, _ => pure (some ⟨none, body, Path.child path "else"⟩)
  | none, some test => do
      let condition ← Load.text test (Path.child path "if")
      let body := Entries.field entries "then"
      if body.isNull then
        Load.report (.schemaError path "branch case has no 'then' body")
      return some ⟨condition, body, Path.child path "then"⟩
  | none, none =>
      reject (.syntaxError path "a branch case needs 'if' and 'then', or 'else'")

/-- The cases of a branch; after one without a condition no other is reached. -/
def loadCases (steps : StepsLoader) (path : String) :
    Bool → List (Nat × Value) → Load (List BranchCase)
  | _, [] => pure []
  | closed, (index, v) :: rest => do
      let casePath := Path.item path index
      match v with
      | .dict entries =>
          match ← writtenCase entries casePath with
          | none => loadCases steps path closed rest
          | some written =>
              if closed then
                Load.report
                  (.consistencyWarning casePath "unreachable branch case after 'else'")
              let body ← steps written.body written.bodyPath
              let more ← loadCases steps path (closed || written.condition.isNone) rest
              return .mk written.condition body :: more
      | _ =>
          Load.report (.syntaxError casePath "a branch case must be a mapping")
          loadCases steps path closed rest

def loadBranch (steps : StepsLoader) : StepLoader := fun entries path => do
  let path := Path.child path "branch"
  match Entries.field entries "branch" with
  | .list (item :: items) =>
      return some (.branch (← loadCases steps path false (Load.indexed (item :: items))))
  | _ => reject (.syntaxError path "branch must be a non-empty list of cases")

def loadWait (steps : StepsLoader) : StepLoader := fun entries path => do
  let path := Path.child path "wait"
  match Entries.field entries "wait" with
  | .str s => return some (.wait (some s) none none none)
  | .int n => return some (.wait (some (← Load.shown (.int n))) none none none)
  | .float x => return some (.wait (some (Decimal.floatText x)) none none none)
  | .dict spec =>
      Load.checkShape Shape.wait spec path
      let duration ← Load.textField spec path "duration"
      let condition ← Load.text (either spec "until" "condition") (Path.child path "until")
      if duration.isNone && condition.isNone then
        Load.report (.schemaError path "wait needs a 'duration' or an 'until' condition")
      let timeout ← Load.textField spec path "timeout"
      let onTimeout ← loadTarget steps .onTimeout (Entries.field spec "on_timeout")
        (Path.child path "on_timeout")
      return some (.wait duration condition timeout onTimeout)
  | _ => reject (.syntaxError path "wait must be a duration or a mapping")

def wrongKeywords (found : List String) : String :=
  "a step must declare exactly one of " ++ ", ".intercalate keywords ++ " (found " ++
    (if found.isEmpty then "none" else ", ".intercalate found) ++ ")"

def loadStep (steps : StepsLoader) (v : Value) (path : String) : Load (Option WorkflowStep) :=
  let noStep := Diagnostic.syntaxError path "a step must be a mapping or an operation name"
  match v with
  | .str s =>
      if s.isEmpty then reject noStep
      else do
        Load.defer path s .call [.operation]
        return some (.call s none none none)
  | .dict entries =>
      match present entries with
      | ["call"] => loadCall steps entries path
      | ["loop"] => loadLoop steps entries path
      | ["parallel"] => loadParallel steps entries path
      | ["branch"] => loadBranch steps entries path
      | ["wait"] => loadWait steps entries path
      | found => reject (.syntaxError path (wrongKeywords found))
  | _ => reject noStep

def loadBody (steps : StepsLoader) (v : Value) (path : String) : Load (List WorkflowStep) :=
  match v with
  | .null => pure []
  | .dict _ => return (← loadStep steps v path).toList
  | .list items =>
      Load.eachSome (fun p => loadStep steps p.2 (Path.item path p.1)) (Load.indexed items)
  | _ => do
      Load.report (.syntaxError path "steps must be a list of steps")
      return []

def loadWithin : Nat → StepsLoader
  | 0 => fun _ _ => pure []
  | depth + 1 => loadBody (loadWithin depth)

def load (v : Value) (path : String) : Load (List WorkflowStep) := loadWithin v.depth v path

end Steps

namespace Workflows

def loadWorkflow (name : String) (body : Value) (path : String) : Load (Option Workflow) := do
  let finish (description trigger : Option String) (steps : List WorkflowStep) :
      Load (Option Workflow) := do
    if steps.isEmpty then
      Load.report (.schemaWarning path ("workflow '" ++ name ++ "' has no steps"))
    return some ⟨name, description, trigger, steps⟩
  match body with
  | .list _ => finish none none (← Steps.load body path)
  | .dict entries =>
      let trigger ← Load.textField entries path "trigger"
      let description ← Load.textField entries path "description"
      let steps ← Steps.load (Entries.field entries "steps") (Path.child path "steps")
      finish description trigger steps
  | _ =>
      Load.report
        (.syntaxError path ("workflow '" ++ name ++ "' must be a mapping or a list of steps"))
      return none

def load (v : Value) (symbols : Symbols) : Except Failure (Declared Workflow) :=
  declareAll .workflow .workflow loadWorkflow v "workflow" symbols

end Workflows

end AppSpec
