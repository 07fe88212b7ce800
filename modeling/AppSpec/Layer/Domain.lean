import AppSpec.Layer.Collection
import AppSpec.Text.Balanced

/-!
The domain layer: custom types first, then entities with their fields and validation rules.
-/

namespace AppSpec

namespace Domain

def loadCustomType (limit : Int) (name : String) (body : Value) (path : String) :
    Load (Option CustomType) := do
  let written :=
    match body with
    | .dict entries =>
        match Entries.field entries "type" with
        | .str s => .str s
        | _ => body
    | body => body
  let (type, rawType) ← Load.typeOf limit written path
  return some ⟨name, type, rawType⟩

def loadField (limit : Int) (path : String) (e : Scalar × Value) :
    Load (String × EntityField) := do
  let name := e.1.text
  let (type, rawType) ← Load.typeOf limit e.2 (Path.child path name)
  return (name, ⟨name, type, rawType⟩)

def loadFields (limit : Int) (entries : Entries) (path : String) : Load (Named EntityField) := do
  Load.keysWritable entries
  return Named.setAll [] (← Load.each (loadField limit path) entries)

def checkExpression (expression path : String) : Load Unit :=
  if Text.isBalanced expression then pure ()
  else
    Load.report (.schemaWarning path
      ("malformed validation expression '" ++ expression ++
        "': unbalanced brackets or quotes"))

def loadRule (path : String) (p : Nat × Value) : Load (Option ValidationRule) := do
  let path := Path.item path p.1
  match p.2 with
  | .str expression =>
      checkExpression expression path
      return some ⟨none, expression⟩
  | .dict entries =>
      let problems ← Load.lift (Shape.validationRule.check entries path)
      if problems.isEmpty then
        let written := (Entries.text? entries "rule").getD (Entries.field entries "description")
        let description ← Load.text written path
        let expression := (Entries.field entries "expression").text
        checkExpression expression path
        return some ⟨description, expression⟩
      else
        Load.reportAll problems
        return none
  | rule =>
      Load.report (.schemaWarning path ("malformed validation rule " ++ (← Load.shown rule)))
      return none

def loadRules (v : Value) (path : String) : Load (List ValidationRule) :=
  match v with
  | .null => pure []
  | .list items => Load.eachSome (loadRule path) (Load.indexed items)
  | _ => do
      Load.report (.schemaError path "validation must be a list of rules")
      return []

def loadEntity (limit : Int) (name : String) (body : Value) (path : String) :
    Load (Option Entity) := do
  match ← bodyEntries? body path ("entity '" ++ name ++ "' must be a mapping of fields") with
  | none => return none
  | some entries =>
      let (description, validation, fields) ←
        match Entries.field entries "fields" with
        | .dict fields => do
            Load.checkShape Shape.entity entries path
            let description ← Load.textField entries path "description"
            let fields ← loadFields limit fields (Path.child path "fields")
            pure (description, Entries.field entries "validation", fields)
        | _ => do
            let fields ← loadFields limit entries path
            pure (none, Value.null, fields)
      if fields.isEmpty then
        Load.report (.schemaWarning path ("entity '" ++ name ++ "' declares no fields"))
      return some ⟨name, description, fields, ← loadRules validation (Path.child path "validation")⟩

structure Sections where
  types : Value
  entities : Value
  entitiesPath : String

/-- The two collections of the layer. Entities stand under a key of their own, or in its place. -/
def sections? (v : Value) : Option Sections :=
  match v with
  | .dict entries =>
      let types := Entries.field entries "types"
      match Entries.text? entries "entities" with
      | some inner => some ⟨types, inner, "domain.entities"⟩
      | none => some ⟨types, .dict (Entries.without entries ["types"]), "domain"⟩
  | .list items => some ⟨.null, .list items, "domain"⟩
  | _ => none

structure Loaded where
  customTypes : Named CustomType
  entities : Named Entity

def load (limit : Int) (v : Value) (symbols : Symbols) :
    Except Failure (Option Loaded × LayerNotes × Symbols) := do
  match sections? v with
  | none =>
      let d := Diagnostic.syntaxError "domain"
        ("domain section must be a mapping, got " ++ v.kindName)
      return (none, { diagnostics := [d] }, symbols)
  | some s =>
      let types ← declareAll .customType .customType (loadCustomType limit) s.types
        "domain.types" symbols
      let entities ← declareAll .entity .entity (loadEntity limit) s.entities s.entitiesPath
        types.symbols
      return (some ⟨types.items, entities.items⟩,
        .ofNotes (types.notes ++ entities.notes) (types.paths.setAll entities.paths),
        entities.symbols)

end Domain

end AppSpec
