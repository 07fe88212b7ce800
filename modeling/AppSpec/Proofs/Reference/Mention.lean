import AppSpec.Model.Document

/-!
Which names a document mentions, each with the namespaces it may be declared in, and which names
the document declares. The members of field access rules and the targets of mappings are not among
the names; errors are declared by their use alone, and no document keeps a list of them.
-/

namespace AppSpec

inductive TypeExpr.Mentions : TypeExpr → List Namespace → String → Prop where
  | reference {target : String} {cs : Constraints} :
      Mentions (.reference target cs) [.entity] target
  | custom {name : String} {cs : Constraints} :
      Mentions (.custom name cs) [.entity, .customType] name
  | array {element : TypeExpr} {cs : Constraints} {spaces : List Namespace} {name : String} :
      Mentions element spaces name → Mentions (.array element cs) spaces name
  | key {key value : TypeExpr} {cs : Constraints} {spaces : List Namespace} {name : String} :
      Mentions key spaces name → Mentions (.map key value cs) spaces name
  | value {key value : TypeExpr} {cs : Constraints} {spaces : List Namespace} {name : String} :
      Mentions value spaces name → Mentions (.map key value cs) spaces name
  | optional {inner : TypeExpr} {cs : Constraints} {spaces : List Namespace} {name : String} :
      Mentions inner spaces name → Mentions (.optional inner cs) spaces name
  | field {fields : List (String × TypeExpr)} {cs : Constraints} {key : String} {t : TypeExpr}
      {spaces : List Namespace} {name : String} :
      (key, t) ∈ fields → Mentions t spaces name → Mentions (.object fields cs) spaces name

mutual

inductive WorkflowStep.Calls : WorkflowStep → String → Prop where
  | call {operation : String} {condition : Option String} {retry : Option RetryPolicy}
      {onError : Option StepTarget} :
      WorkflowStep.Calls (.call operation condition retry onError) operation
  | onError {operation : String} {condition : Option String} {retry : Option RetryPolicy}
      {target : StepTarget} {name : String} :
      StepTarget.Calls target name →
        WorkflowStep.Calls (.call operation condition retry (some target)) name
  | loop {collection condition : Option String} {body : List WorkflowStep}
      {maxIterations : Option Int} {timeout : Option String} {onTimeout : Option StepTarget}
      {step : WorkflowStep} {name : String} :
      step ∈ body → WorkflowStep.Calls step name →
        WorkflowStep.Calls (.loop collection condition body maxIterations timeout onTimeout) name
  | loopTimeout {collection condition : Option String} {body : List WorkflowStep}
      {maxIterations : Option Int} {timeout : Option String} {target : StepTarget}
      {name : String} :
      StepTarget.Calls target name →
        WorkflowStep.Calls (.loop collection condition body maxIterations timeout (some target)) name
  | parallel {body : List WorkflowStep} {step : WorkflowStep} {name : String} :
      step ∈ body → WorkflowStep.Calls step name → WorkflowStep.Calls (.parallel body) name
  | branch {cases : List BranchCase} {condition : Option String} {body : List WorkflowStep}
      {step : WorkflowStep} {name : String} :
      .mk condition body ∈ cases → step ∈ body → WorkflowStep.Calls step name →
        WorkflowStep.Calls (.branch cases) name
  | waitTimeout {duration condition timeout : Option String} {target : StepTarget}
      {name : String} :
      StepTarget.Calls target name →
        WorkflowStep.Calls (.wait duration condition timeout (some target)) name

inductive StepTarget.Calls : StepTarget → String → Prop where
  | operation {name : String} : StepTarget.Calls (.operation name) name
  | steps {body : List WorkflowStep} {step : WorkflowStep} {name : String} :
      step ∈ body → WorkflowStep.Calls step name → StepTarget.Calls (.steps body) name

end

inductive Entity.Mentions (e : Entity) : List Namespace → String → Prop where
  | field {key : String} {field : EntityField} {t : TypeExpr} {spaces : List Namespace}
      {name : String} :
      (key, field) ∈ e.fields → field.type = some t → t.Mentions spaces name →
        e.Mentions spaces name

inductive CustomType.Mentions (c : CustomType) : List Namespace → String → Prop where
  | type {t : TypeExpr} {spaces : List Namespace} {name : String} :
      c.type = some t → t.Mentions spaces name → c.Mentions spaces name

inductive Operation.Mentions (o : Operation) : List Namespace → String → Prop where
  | input {p : Parameter} {t : TypeExpr} {spaces : List Namespace} {name : String} :
      p ∈ o.inputs → p.type = some t → t.Mentions spaces name → o.Mentions spaces name
  | output {t : TypeExpr} {spaces : List Namespace} {name : String} :
      o.output = some t → t.Mentions spaces name → o.Mentions spaces name
  | modifies {name : String} : name ∈ o.modifies → o.Mentions [.entity] name

inductive Component.Mentions (c : Component) : List Namespace → String → Prop where
  | responsibility {name : String} : name ∈ c.responsibilities → c.Mentions [.operation] name
  | dependency {name : String} : name ∈ c.dependencies → c.Mentions [.component] name
  | resource {name : String} : name ∈ c.resources → c.Mentions [.resource] name

inductive Workflow.Mentions (w : Workflow) : List Namespace → String → Prop where
  | step {step : WorkflowStep} {name : String} :
      step ∈ w.steps → step.Calls name → w.Mentions [.operation] name

inductive Page.Mentions (p : Page) : List Namespace → String → Prop where
  | display {name : String} : name ∈ p.displays → p.Mentions [.entity] name
  | action {name : String} : name ∈ p.actions → p.Mentions [.operation] name
  | role {name : String} : name ∈ p.roles → p.Mentions [.role] name

inductive Role.Mentions (r : Role) : List Namespace → String → Prop where
  | inherits {name : String} : name ∈ r.inherits → r.Mentions [.role] name

inductive Permission.Mentions (p : Permission) : List Namespace → String → Prop where
  | action : p.Mentions [.operation] p.action
  | role {name : String} : name ∈ p.roles → p.Mentions [.role] name

inductive FieldAccess.Mentions (a : FieldAccess) : List Namespace → String → Prop where
  | read {name : String} : name ∈ a.readRoles → a.Mentions [.role] name
  | write {name : String} : name ∈ a.writeRoles → a.Mentions [.role] name

namespace DocumentModel

inductive Mentions (m : DocumentModel) : List Namespace → String → Prop where
  | customType {key : String} {c : CustomType} {spaces : List Namespace} {name : String} :
      (key, c) ∈ m.customTypes → c.Mentions spaces name → m.Mentions spaces name
  | entity {key : String} {e : Entity} {spaces : List Namespace} {name : String} :
      (key, e) ∈ m.entities → e.Mentions spaces name → m.Mentions spaces name
  | operation {key : String} {o : Operation} {spaces : List Namespace} {name : String} :
      (key, o) ∈ m.operations → o.Mentions spaces name → m.Mentions spaces name
  | component {key : String} {c : Component} {spaces : List Namespace} {name : String} :
      (key, c) ∈ m.components → c.Mentions spaces name → m.Mentions spaces name
  | workflow {key : String} {w : Workflow} {spaces : List Namespace} {name : String} :
      (key, w) ∈ m.workflows → w.Mentions spaces name → m.Mentions spaces name
  | page {key : String} {p : Page} {spaces : List Namespace} {name : String} :
      (key, p) ∈ m.pages → p.Mentions spaces name → m.Mentions spaces name
  | role {key : String} {r : Role} {spaces : List Namespace} {name : String} :
      (key, r) ∈ m.security.roles → r.Mentions spaces name → m.Mentions spaces name
  | permission {p : Permission} {spaces : List Namespace} {name : String} :
      p ∈ m.security.permissions → p.Mentions spaces name → m.Mentions spaces name
  | fieldAccess {a : FieldAccess} {spaces : List Namespace} {name : String} :
      a ∈ m.security.fieldAccess → a.Mentions spaces name → m.Mentions spaces name
  | mappingKey {name : String} : name ∈ m.mapping.keys → m.Mentions [.operation] name

def declared (m : DocumentModel) : Namespace → List String
  | .entity => m.entities.keys
  | .customType => m.customTypes.keys
  | .operation => m.operations.keys
  | .component => m.components.keys
  | .role => m.security.roles.keys
  | .integration => m.integrations.keys
  | .resource => m.resources.keys
  | .error => []
  | .workflow => m.workflows.keys
  | .page => m.pages.keys

end DocumentModel

end AppSpec
