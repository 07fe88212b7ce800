import AppSpec.Layer.Collection
import AppSpec.Members

/-!
The components layer, and the layers of infrastructure resources and of integrations.
-/

namespace AppSpec

namespace Components

def kind? : Value → Option String
  | .str s => if Shape.componentKinds.contains s then some s else none
  | _ => none

def loadMembers (v : Value) : Load Entries :=
  if Members.hasLongKey v then Load.fail .integerTooLong else pure (Members.tree v)

def loadComponent (id : String) (body : Value) (path : String) : Load (Option Component) := do
  match ← bodyEntries? body path ("component '" ++ id ++ "' must be a mapping") with
  | none => return none
  | some entries =>
      Load.checkShape Shape.component entries path
      let description ← Load.textField entries path "description"
      let responsibilities ←
        Load.deferField entries path "responsibilities" .responsibility .operation
      let dependencies ← Load.deferField entries path "dependencies" .dependency .component
      let resources ← Load.deferField entries path "resources" .resource .resource
      let exposes ← loadMembers (Entries.field entries "exposes")
      return some
        { id, kind := kind? (Entries.field entries "type"), description, responsibilities,
          dependencies, resources, exposes }

def load (v : Value) (symbols : Symbols) : Except Failure (Declared Component) :=
  declareAll .component .component loadComponent v "components" symbols

end Components

namespace Infrastructure

def loadResource (id : String) (body : Value) (path : String) : Load (Option Resource) :=
  match body with
  | .null => pure (some ⟨id, none, []⟩)
  | .str kind => pure (some ⟨id, some kind, []⟩)
  | .dict entries => do
      let kind ← Load.textField entries path "type"
      return some ⟨id, kind, ← Load.extraFields entries ["type"]⟩
  | _ => do
      Load.report
        (.syntaxError path ("resource '" ++ id ++ "' must be a mapping or a type name"))
      return none

def load (v : Value) (symbols : Symbols) : Except Failure (Declared Resource) :=
  declareAll .resource .resource loadResource v "infrastructure" symbols

end Infrastructure

namespace Integrations

def knownFields : List String := ["type", "base_url", "operations", "endpoints"]

def loadIntegration (id : String) (body : Value) (path : String) : Load (Option Integration) := do
  match ← bodyEntries? body path ("integration '" ++ id ++ "' must be a mapping") with
  | none => return none
  | some entries =>
      Load.checkShape Shape.integration entries path
      let kind ← Load.textField entries path "type"
      let baseUrl ← Load.textField entries path "base_url"
      let operationsKey := if Entries.has entries "operations" then "operations" else "endpoints"
      let operations ← Components.loadMembers (Entries.field entries operationsKey)
      return some
        { id, kind, baseUrl, operations, config := ← Load.extraFields entries knownFields }

def load (v : Value) (symbols : Symbols) : Except Failure (Declared Integration) :=
  declareAll .integration .integration loadIntegration v "integrations" symbols

end Integrations

end AppSpec
