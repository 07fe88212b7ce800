import AppSpec.Named
import AppSpec.Value.Basic

/-!
Type expressions. Every node carries its own constraints, in the order in which they were written.
-/

namespace AppSpec

abbrev Constraints := Named Value

inductive TypeExpr where
  | primitive (name : String) (constraints : Constraints)
  | enum (values : List String) (constraints : Constraints)
  | array (element : TypeExpr) (constraints : Constraints)
  | map (key value : TypeExpr) (constraints : Constraints)
  | optional (inner : TypeExpr) (constraints : Constraints)
  | object (fields : List (String × TypeExpr)) (constraints : Constraints)
  | reference (target : String) (constraints : Constraints)
  | custom (name : String) (constraints : Constraints)

instance : Inhabited TypeExpr := ⟨.object [] []⟩

inductive NameUse where
  | reference
  | custom
  deriving DecidableEq, Repr

inductive Composite where
  | enum
  | array
  | map
  | optional
  | object
  | reference
  deriving DecidableEq, Repr

namespace Composite

def label : Composite → String
  | .enum => "enum"
  | .array => "array"
  | .map => "map"
  | .optional => "optional"
  | .object => "object"
  | .reference => "reference"

def all : List Composite := [.enum, .array, .map, .optional, .object, .reference]

end Composite

namespace TypeExpr

def primitives : List String :=
  ["string", "text", "integer", "int", "long", "float", "double", "decimal", "number", "boolean",
    "bool", "date", "datetime", "time", "timestamp", "duration", "uuid", "email", "url", "uri",
    "json", "binary", "bytes", "any"]

def isPrimitive (name : String) : Bool := primitives.contains name.toLower

def keywords : Named Composite :=
  [("enum", .enum), ("array", .array), ("list", .array), ("map", .map), ("dict", .map),
    ("optional", .optional), ("object", .object), ("reference", .reference), ("ref", .reference)]

def keyword? (name : String) : Option Composite := keywords.get? name.toLower

/-- The deepest nesting that is read where nothing else is said. -/
def defaultLimit : Int := 128

def constraints : TypeExpr → Constraints
  | .primitive _ cs => cs
  | .enum _ cs => cs
  | .array _ cs => cs
  | .map _ _ cs => cs
  | .optional _ cs => cs
  | .object _ cs => cs
  | .reference _ cs => cs
  | .custom _ cs => cs

def withConstraints : TypeExpr → Constraints → TypeExpr
  | .primitive name _, cs => .primitive name cs
  | .enum values _, cs => .enum values cs
  | .array element _, cs => .array element cs
  | .map key value _, cs => .map key value cs
  | .optional inner _, cs => .optional inner cs
  | .object fields _, cs => .object fields cs
  | .reference target _, cs => .reference target cs
  | .custom name _, cs => .custom name cs

theorem constraints_withConstraints (t : TypeExpr) (cs : Constraints) :
    (t.withConstraints cs).constraints = cs := by
  cases t <;> rfl

theorem withConstraints_constraints (t : TypeExpr) : t.withConstraints t.constraints = t := by
  cases t <;> rfl

def kindLabel : TypeExpr → String
  | .primitive .. => "primitive"
  | .enum .. => "enum"
  | .array .. => "array"
  | .map .. => "map"
  | .optional .. => "optional"
  | .object .. => "object"
  | .reference .. => "reference"
  | .custom .. => "custom"

mutual

def names : TypeExpr → List (NameUse × String)
  | .primitive .. => []
  | .enum .. => []
  | .array element _ => element.names
  | .map key value _ => key.names ++ value.names
  | .optional inner _ => inner.names
  | .object fields _ => fieldNames fields
  | .reference target _ => [(.reference, target)]
  | .custom name _ => [(.custom, name)]

def fieldNames : List (String × TypeExpr) → List (NameUse × String)
  | [] => []
  | (_, t) :: fields => t.names ++ fieldNames fields

end

def sameConstraints (a b : Constraints) : Bool :=
  a.length == b.length && a.all fun e =>
    match b.get? e.1 with
    | none => false
    | some other => e.2.same other

mutual

/-- Equality of types, whatever the order of fields and constraints. -/
def same : TypeExpr → TypeExpr → Bool
  | .primitive a cs, .primitive b ds => a == b && sameConstraints cs ds
  | .enum a cs, .enum b ds => a == b && sameConstraints cs ds
  | .array a cs, .array b ds => a.same b && sameConstraints cs ds
  | .map a v cs, .map b w ds => a.same b && v.same w && sameConstraints cs ds
  | .optional a cs, .optional b ds => a.same b && sameConstraints cs ds
  | .object a cs, .object b ds =>
      a.length == b.length && sameFields a b && sameConstraints cs ds
  | .reference a cs, .reference b ds => a == b && sameConstraints cs ds
  | .custom a cs, .custom b ds => a == b && sameConstraints cs ds
  | _, _ => false

def sameFields : List (String × TypeExpr) → List (String × TypeExpr) → Bool
  | [], _ => true
  | (name, t) :: fields, others =>
      (match Named.get? others name with
        | none => false
        | some other => t.same other) && sameFields fields others

end

end TypeExpr

end AppSpec
