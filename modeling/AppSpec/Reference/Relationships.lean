import AppSpec.Model.Document
import AppSpec.Graph.Basic

/-!
Relationships between entities, read off the fields that refer to entities. A relation constraint
states its kind; otherwise a collection is to many, and many to many where the target has a
collection that leads back.
-/

namespace AppSpec

/-- What the wrappers of a field's type and the type inside them say together. -/
structure FieldShape where
  target : Option String
  isOptional : Bool
  isCollection : Bool
  constraints : Constraints

namespace FieldShape

/-- Constraints with those of an outer node in front; the outer ones win. -/
def under (outer inner : Constraints) : Constraints :=
  outer ++ inner.filter fun e => !Named.has outer e.1

def ofType (t : Symbols) : TypeExpr → FieldShape
  | .optional inner cs =>
      let s := ofType t inner
      { s with isOptional := true, constraints := under cs s.constraints }
  | .array element cs =>
      let s := ofType t element
      { s with isCollection := true, constraints := under cs s.constraints }
  | .reference target cs => ⟨some target, false, false, cs⟩
  | .custom name cs => ⟨if t.has .entity name then some name else none, false, false, cs⟩
  | other => ⟨none, false, false, other.constraints⟩

end FieldShape

structure RelationCandidate where
  source : String
  field : String
  target : String
  isOptional : Bool
  isCollection : Bool
  stated : Option RelationshipKind
  deriving DecidableEq, Repr

namespace Relationships

/-- The kind that a relation constraint states; a constraint of another text is unknown. -/
inductive StatedRelation where
  | none
  | kind (k : RelationshipKind)
  | unknown (text : String)

def stated (constraints : Constraints) : StatedRelation :=
  match constraints.get? "relation" with
  | .none => .none
  | some .null => .none
  | some (.str s) =>
      match RelationshipKind.ofLabel? s with
      | some k => .kind k
      | .none => .unknown s
  | some v => .unknown v.text

def statedTarget (constraints : Constraints) (otherwise : Option String) : Option String :=
  match constraints.get? "target" with
  | some (.str s) => some s
  | _ => otherwise

def unknownKind (path text : String) : Diagnostic :=
  .schemaError path ("unknown relation kind '" ++ text ++ "'")
    (some ("Use one of: " ++ ", ".intercalate (RelationshipKind.all.map RelationshipKind.label)))

/-- The candidate that a field gives, and what is wrong with its relation. -/
def ofField (t : Symbols) (entity entityPath : String) (f : EntityField) :
    Option RelationCandidate × List Diagnostic :=
  match f.type with
  | none => (none, [])
  | some type =>
      let shape := FieldShape.ofType t type
      let candidate (target : Option String) (k : Option RelationshipKind) :=
        target.bind fun name =>
          if t.has .entity name then
            some ⟨entity, f.name, name, shape.isOptional, shape.isCollection, k⟩
          else none
      match stated shape.constraints with
      | .none => (candidate shape.target none, [])
      | .kind k => (candidate (statedTarget shape.constraints shape.target) (some k), [])
      | .unknown text =>
          (candidate shape.target none, [unknownKind (Path.child entityPath f.name) text])

def ofEntity (t : Symbols) (paths : Named String) (e : Entity) :
    List (Option RelationCandidate × List Diagnostic) :=
  let path := (paths.get? e.name).getD (Path.child "domain" e.name)
  e.fields.values.map (ofField t e.name path)

def hasReverse (candidates : List RelationCandidate) (c : RelationCandidate) : Bool :=
  candidates.any fun d => d.isCollection && d.source == c.target && d.target == c.source

def kindOf (candidates : List RelationCandidate) (c : RelationCandidate) : RelationshipKind :=
  match c.stated with
  | some k => k
  | none =>
      if c.isCollection then
        if hasReverse candidates c then .manyToMany else .oneToMany
      else .manyToOne

def junctionName (a b : String) : String := if a ≤ b then a ++ b else b ++ a

def relationship (candidates : List RelationCandidate) (c : RelationCandidate) : Relationship :=
  let kind := kindOf candidates c
  { source := c.source, field := c.field, target := c.target, kind
    required := !c.isOptional && !c.isCollection
    explicit := c.stated.isSome
    junction := if kind = .manyToMany then some (junctionName c.source c.target) else none }

def order (a b : Relationship) : Ordering :=
  (compare a.source b.source).then (compare a.field b.field)

end Relationships

structure InferredRelationships where
  relationships : List Relationship
  diagnostics : List Diagnostic

open Relationships in
def inferRelationships (t : Symbols) (entities : List Entity) (paths : Named String) :
    InferredRelationships :=
  let found := entities.flatMap (ofEntity t paths)
  let candidates := found.filterMap (·.1)
  { relationships :=
      (candidates.map (relationship candidates)).mergeSort fun a b => (order a b).isLE
    diagnostics := found.flatMap (·.2) }

namespace DependencyGraph

def ofComponents (items : List (String × List String)) : DependencyGraph :=
  ofItems "component dependency" items

def ofRoles (items : List (String × List String)) : DependencyGraph :=
  ofItems "role inheritance" items

/-- Entities linked by references that must be there. -/
def ofRequired (names : List String) (relationships : List Relationship) : DependencyGraph :=
  let nodes := names.foldl addNode (empty "required entity reference")
  relationships.foldl
    (fun g r => if r.required && g.hasNode r.source then g.addEdge r.source r.target else g) nodes

end DependencyGraph

end AppSpec
