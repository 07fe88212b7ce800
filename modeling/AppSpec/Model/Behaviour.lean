import AppSpec.TypeExpr.Basic

/-!
The logic and workflow layers: operations, and workflows whose steps nest.
-/

namespace AppSpec

structure Parameter where
  name : String
  type : Option TypeExpr
  rawType : Option String

structure Operation where
  name : String
  description : Option String
  inputs : List Parameter
  output : Option TypeExpr
  rawOutput : Option String
  modifies : List String
  errors : List String
  preconditions : List String
  postconditions : List String
  isAsync : Bool
  idempotent : Bool
  retryable : Bool

structure RetryPolicy where
  maxAttempts : Option Int
  backoff : Option String
  delay : Option String
  deriving DecidableEq, Repr

mutual

inductive WorkflowStep where
  | call (operation : String) (condition : Option String) (retry : Option RetryPolicy)
      (onError : Option StepTarget)
  | loop (collection condition : Option String) (body : List WorkflowStep)
      (maxIterations : Option Int) (timeout : Option String) (onTimeout : Option StepTarget)
  | parallel (body : List WorkflowStep)
  | branch (cases : List BranchCase)
  | wait (duration condition timeout : Option String) (onTimeout : Option StepTarget)

/-- Where a failed or late step goes on: to an operation, or to steps of its own. -/
inductive StepTarget where
  | operation (name : String)
  | steps (body : List WorkflowStep)

/-- A case without a condition takes whatever the cases before it leave. -/
inductive BranchCase where
  | mk (condition : Option String) (body : List WorkflowStep)

end

structure Workflow where
  name : String
  description : Option String
  trigger : Option String
  steps : List WorkflowStep

end AppSpec
