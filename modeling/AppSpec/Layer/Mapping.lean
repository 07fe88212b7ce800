import AppSpec.Layer.Collection

/-!
The project layer, and the mapping of operations to members of components and integrations.
-/

namespace AppSpec

namespace Project

def knownFields : List String := ["name", "version", "description", "language"]

def loadInfo (v : Value) : Load (Option ProjectInfo) := do
  match ← Load.mapping? v "project" "project section" with
  | none => return none
  | some entries =>
      Load.checkShape Shape.project entries "project"
      let name ← Load.textField entries "project" "name"
      let version ← Load.textField entries "project" "version"
      let description ← Load.textField entries "project" "description"
      let language ← Load.textField entries "project" "language"
      return some
        { name, version, description, language
          extra := ← Load.extraFields entries knownFields }

end Project

namespace Mapping

structure Entries where
  entries : Named MappingEntry
  paths : Named String

/-- Binds an operation to a target; the first binding stays. -/
def bindTarget (operation : String) (target : Value) (path : String) (s : Entries) :
    Load Entries :=
  let accept (target : Option String) : Load Entries :=
    if s.entries.has operation then do
      Load.report (.consistencyError path
        ("operation '" ++ operation ++ "' has more than one mapping entry (first wins)")
        (some "Remove the extra mapping entry"))
      return s
    else do
      Load.defer path operation .mappingKey [.operation]
      match target with
      | some name => Load.defer path name .mappingTarget [.component, .integration]
      | none => pure ()
      return ⟨s.entries ++ [(operation, ⟨operation, target⟩)], s.paths ++ [(operation, path)]⟩
  match target with
  | .null => accept none
  | .str name => accept (if name.isEmpty then none else some name)
  | _ => do
      Load.report (.schemaError path
        ("mapping target for '" ++ operation ++ "' must be a dotted path or null"))
      return s

def bindPath (operation : String) : String := Path.child "mapping" operation

def bindEntries : AppSpec.Entries → Entries → Load Entries
  | [], s => pure s
  | (key, target) :: rest, s => do
      bindEntries rest (← bindTarget key.text target (bindPath key.text) s)

def bindItem (index : Nat) (v : Value) (s : Entries) : Load Entries := do
  let path := Path.item "mapping" index
  match v with
  | .dict entries =>
      let problems ← Load.lift (Shape.mappingEntry.check entries path)
      if problems.isEmpty then
        let operation := (AppSpec.Entries.field entries "operation").text
        bindTarget operation (AppSpec.Entries.field entries "target") (bindPath operation) s
      else
        Load.reportAll problems
        return s
  | _ =>
      Load.report (.syntaxError path "a mapping entry must be a mapping")
      return s

def bindItems : List (Nat × Value) → Entries → Load Entries
  | [], s => pure s
  | (index, v) :: rest, s => do bindItems rest (← bindItem index v s)

def load (v : Value) : Load (Option Entries) :=
  match v with
  | .dict entries => do
      Load.keysWritable entries
      return some (← bindEntries entries ⟨[], []⟩)
  | .list items => do return some (← bindItems (Load.indexed items) ⟨[], []⟩)
  | v => do
      Load.report
        (.syntaxError "mapping" ("mapping section must be a mapping, got " ++ v.kindName))
      return none

end Mapping

end AppSpec
