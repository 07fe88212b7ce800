import AppSpec.Layer.Collection

/-!
The logic layer: operations with their parameters and results.
-/

namespace AppSpec

namespace Logic

structure WrittenParameter where
  name : String
  type : Value
  path : String

def parameterOf (path name : String) (type : Value) : WrittenParameter :=
  ⟨name, type, Path.child path name⟩

def listedParameter (path : String) (p : Nat × Value) : Load (Option WrittenParameter) := do
  let malformed : Load (Option WrittenParameter) := do
    Load.report (.syntaxError (Path.item path p.1) "parameters must be 'name: type' mappings")
    return none
  match p.2 with
  | .dict entries =>
      match Entries.text? entries "name", Entries.text? entries "type", entries with
      | some name, some type, _ =>
          if name.hasLongInteger then Load.fail .integerTooLong
          else return some (parameterOf path name.text type)
      | _, _, [(key, type)] =>
          Load.keysWritable entries
          return some (parameterOf path key.text type)
      | _, _, _ => malformed
  | _ => malformed

def writtenParameters (v : Value) (path : String) : Load (List WrittenParameter) :=
  match v with
  | .dict entries => do
      Load.keysWritable entries
      return entries.map fun e => parameterOf path e.1.text e.2
  | .list items => Load.eachSome (listedParameter path) (Load.indexed items)
  | _ => pure []

/-- Reads the types of parameters; the first of a name stays. -/
def loadWritten (limit : Int) : List String → List WrittenParameter → Load (List Parameter)
  | _, [] => pure []
  | seen, p :: rest =>
      if seen.contains p.name then do
        Load.report (.consistencyError p.path ("duplicate parameter '" ++ p.name ++ "'"))
        loadWritten limit seen rest
      else do
        let (type, rawType) ← Load.typeOf limit p.type p.path
        return ⟨p.name, type, rawType⟩ :: (← loadWritten limit (p.name :: seen) rest)

def loadParameters (limit : Int) (v : Value) (path : String) : Load (List Parameter) := do
  loadWritten limit [] (← writtenParameters v path)

def loadOutput (limit : Int) (v : Value) (path : String) :
    Load (Option TypeExpr × Option String) :=
  match v with
  | .null => pure (none, none)
  | v => Load.typeOf limit v path

def loadErrors (v : Value) (path : String) : Load (List String) := do
  Load.each (fun p => do
    Load.useError p.1 p.2
    Load.defer p.2 p.1 .error [.error]
    return p.1) (← Load.names v path)

def isTrue : Value → Bool
  | .bool b => b
  | _ => false

def loadOperation (limit : Int) (name : String) (body : Value) (path : String) :
    Load (Option Operation) := do
  match ← bodyEntries? body path ("operation '" ++ name ++ "' must be a mapping") with
  | none => return none
  | some entries =>
      Load.checkShape Shape.operation entries path
      let below := Path.child path
      let inputKey := if Entries.has entries "input" then "input" else "inputs"
      let inputs ← loadParameters limit (Entries.field entries inputKey) (below inputKey)
      let (output, rawOutput) ← loadOutput limit (Entries.field entries "output") (below "output")
      let modifies ← Load.deferField entries path "modifies" .modifies .entity
      let errors ← loadErrors (Entries.field entries "errors") (below "errors")
      let description ← Load.textField entries path "description"
      let preconditions ←
        Load.texts (Entries.field entries "preconditions") (below "preconditions")
      let postconditions ←
        Load.texts (Entries.field entries "postconditions") (below "postconditions")
      return some
        { name, description, inputs, output, rawOutput, modifies, errors, preconditions,
          postconditions
          isAsync := isTrue (Entries.field entries "async")
          idempotent := isTrue (Entries.field entries "idempotent")
          retryable := isTrue (Entries.field entries "retryable") }

def load (limit : Int) (v : Value) (symbols : Symbols) : Except Failure (Declared Operation) :=
  let (items, path) := unwrapped v "logic" "operations"
  declareAll .operation .operation (loadOperation limit) items path symbols

end Logic

end AppSpec
