import AppSpec.Layer.Workflow
import AppSpec.Reference.Relationships
import AppSpec.Settings.Basic
import AppSpec.Shape
import AppSpec.TypeExpr.Basic

/-!
What a document may consist of, told as a value.
-/

namespace AppSpec

namespace TypeExpr

def compositeLabels : List String := Order.sortedTexts (Composite.all.map Composite.label)

/-- The names of all types: the primitive ones in order, then those built out of arguments. -/
def supported : List String := Order.sortedTexts primitives ++ compositeLabels

end TypeExpr

namespace Value

def texts (ss : List String) : Value := .list (ss.map Value.str)

def record (fields : List (String × Value)) : Value :=
  .dict (fields.map fun f => (.str f.1, f.2))

end Value

namespace FieldRule

def kindsValue : List ValueKind → Value
  | [kind] => .str kind.label
  | kinds => .texts (kinds.map ValueKind.label)

def record (rule : FieldRule) : Value :=
  .record ([("type", kindsValue rule.kinds)] ++
    (if rule.required then [("required", .bool true)] else []) ++
    (if rule.nonEmpty then [("empty", .bool false)] else []) ++
    (rule.allowed.map fun labels => ("allowed", Value.texts labels)).toList ++
    (rule.least.map fun n => ("min", Value.int n)).toList ++
    (if rule.nullable then [("nullable", .bool true)] else []) ++
    (if rule.textItems then [("schema", .record [("type", .str "string")])] else []) ++
    if rule.rooted then [("regex", .str "^/.*")] else [])

end FieldRule

namespace Shape

def record (shape : Shape) : Value := .record (shape.map fun f => (f.1, f.2.record))

end Shape

namespace Catalogue

def aliases : List (String × Value) :=
  (TypeExpr.keywords.filter fun k => k.1 != k.2.label).map fun k => (k.1, .str k.2.label)

def minimalExample : Value :=
  .record [
    ("project", .record [("name", .str "Tasks")]),
    ("domain", .record [
      ("User", .record [("id", .str "uuid"), ("email", .str "email")]),
      ("Task", .record [("id", .str "uuid"), ("title", .str "string\x7bminLength: 1\x7d"),
        ("assignee", .str "reference[User]")])]),
    ("logic", .record [
      ("AssignTask", .record [("input", .record [("task", .str "reference[Task]")]),
        ("modifies", .texts ["Task"])])]),
    ("components", .record [
      ("tasks", .record [("type", .str "service"), ("responsibilities", .texts ["AssignTask"])])])]

def sections : List (String × Value) :=
  [("version", .str "1.0"), ("supported_formats", .texts [ParserKind.json.label, ParserKind.yaml.label]),
    ("layers", .texts layerOrder),
    ("primitive_types", .texts (Order.sortedTexts TypeExpr.primitives)),
    ("composite_types", .texts TypeExpr.compositeLabels), ("type_aliases", .record aliases),
    ("step_kinds", .texts Steps.keywords), ("component_kinds", .texts Shape.componentKinds),
    ("relationship_kinds", .texts (RelationshipKind.all.map RelationshipKind.label)),
    ("item_schemas", .record (Shape.all.map fun s => (s.1, s.2.record))),
    ("example_minimal", minimalExample)]

def whole : Value := .record sections

def section? (name : String) : Except Failure Value :=
  match Named.get? sections name with
  | some v => .ok v
  | none => .error .unknownEntry

end Catalogue

end AppSpec
