import AppSpec.TypeExpr.Basic

/-!
The domain layer: custom types, entities, and the relationships between entities.
-/

namespace AppSpec

/-- A declared type; the expression is missing where its text was no type. -/
structure CustomType where
  name : String
  type : Option TypeExpr
  rawType : Option String

structure EntityField where
  name : String
  type : Option TypeExpr
  rawType : Option String

structure ValidationRule where
  description : Option String
  expression : String
  deriving DecidableEq, Repr

structure Entity where
  name : String
  description : Option String
  fields : Named EntityField
  validation : List ValidationRule

inductive RelationshipKind where
  | oneToOne
  | oneToMany
  | manyToOne
  | manyToMany
  deriving DecidableEq, Repr

namespace RelationshipKind

def label : RelationshipKind → String
  | .oneToOne => "one-to-one"
  | .oneToMany => "one-to-many"
  | .manyToOne => "many-to-one"
  | .manyToMany => "many-to-many"

def all : List RelationshipKind := [.oneToOne, .oneToMany, .manyToOne, .manyToMany]

def ofLabel? (s : String) : Option RelationshipKind := all.find? fun k => k.label == s

end RelationshipKind

structure Relationship where
  source : String
  field : String
  target : String
  kind : RelationshipKind
  /-- Neither optional nor a collection. -/
  required : Bool
  /-- Declared by a constraint of the field. -/
  explicit : Bool
  junction : Option String
  deriving DecidableEq, Repr

end AppSpec
