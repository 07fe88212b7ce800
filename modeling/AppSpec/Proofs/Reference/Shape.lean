import AppSpec.Proofs.Named
import AppSpec.Proofs.Reference.Relationships

/-!
What the type of a field says of an entity, apart from any way of collecting it: the innermost type
names one, unless the constraints name another together with a kind; of constraints under one name
the outermost counts.
-/

namespace AppSpec

namespace TypeExpr

/-- The type inside the optionals and arrays. -/
def innermost : TypeExpr → TypeExpr
  | .optional inner _ => inner.innermost
  | .array element _ => element.innermost
  | t => t

/-- The outermost constraint of the name. -/
def merged? (key : String) : TypeExpr → Option Value
  | .optional inner cs => (cs.get? key).or (inner.merged? key)
  | .array element cs => (cs.get? key).or (element.merged? key)
  | t => t.constraints.get? key

/-- An array, or an optional that holds one. -/
inductive Collection : TypeExpr → Prop
  | array (element : TypeExpr) (cs : Constraints) : Collection (.array element cs)
  | optional {inner : TypeExpr} {cs : Constraints} (h : Collection inner) :
      Collection (.optional inner cs)

/-- Neither an optional nor an array. -/
def Plain (t : TypeExpr) : Prop :=
  ∀ inner cs, t ≠ .optional inner cs ∧ t ≠ .array inner cs

theorem Plain.not_collection {t : TypeExpr} (h : t.Plain) : ¬ t.Collection := by
  intro hcollection
  cases hcollection with
  | array element cs => exact (h element cs).2 rfl
  | optional hinner => exact (h _ _).1 rfl

def named? : TypeExpr → Option String
  | .reference target _ => some target
  | .custom name _ => some name
  | _ => none

def statedKind? (t : TypeExpr) : Option RelationshipKind :=
  ((t.merged? "relation").bind Value.str?).bind RelationshipKind.ofLabel?

def statedTarget? (t : TypeExpr) : Option String := (t.merged? "target").bind Value.str?

/-- The name that a relationship of the type would lead to. -/
def pointsTo? (t : TypeExpr) : Option String :=
  (t.statedKind?.bind fun _ => t.statedTarget?).or t.innermost.named?

end TypeExpr

namespace FieldShape

theorem get?_under (outer inner : Constraints) (key : String) :
    (under outer inner).get? key = (outer.get? key).or (inner.get? key) := by
  rw [under, Named.get?_append]
  cases houter : outer.get? key with
  | some v => rfl
  | none =>
      have hkey : Named.has outer key = false := by rw [Named.has, houter]; rfl
      rw [Option.none_or, Option.none_or]
      induction inner with
      | nil => rfl
      | cons entry inner ih =>
          obtain ⟨name, v⟩ := entry
          by_cases hname : name = key
          · subst hname
            simp [Named.get?, hkey]
          · rw [List.filter_cons]
            split <;> simp [Named.get?, hname, ih]

theorem get?_constraints (t : Symbols) (τ : TypeExpr) (key : String) :
    (ofType t τ).constraints.get? key = τ.merged? key := by
  fun_induction ofType t τ with
  | case1 inner cs s ih => rw [get?_under, ih, TypeExpr.merged?]
  | case2 element cs s ih => rw [get?_under, ih, TypeExpr.merged?]
  | case3 target cs => rfl
  | case4 name cs => rfl
  | case5 other => rw [TypeExpr.merged?] <;> assumption

theorem isCollection_iff (t : Symbols) (τ : TypeExpr) :
    (ofType t τ).isCollection = true ↔ τ.Collection := by
  fun_induction ofType t τ with
  | case1 inner cs s ih =>
      refine ih.trans ⟨.optional, fun h => ?_⟩
      cases h with
      | optional hinner => exact hinner
  | case2 element cs s ih => exact iff_of_true rfl (.array element cs)
  | case3 target cs =>
      have hplain : (TypeExpr.reference target cs).Plain := by simp [TypeExpr.Plain]
      exact iff_of_false Bool.false_ne_true hplain.not_collection
  | case4 name cs =>
      have hplain : (TypeExpr.custom name cs).Plain := by simp [TypeExpr.Plain]
      exact iff_of_false Bool.false_ne_true hplain.not_collection
  | case5 other hoptional harray =>
      have hplain : other.Plain := fun inner cs => ⟨hoptional inner cs, harray inner cs⟩
      exact iff_of_false Bool.false_ne_true hplain.not_collection

theorem required_iff (t : Symbols) (τ : TypeExpr) :
    (!(ofType t τ).isOptional && !(ofType t τ).isCollection) = true ↔ τ.Plain := by
  fun_cases ofType t τ with
  | case1 inner cs => simp [TypeExpr.Plain]
  | case2 element cs => simp [TypeExpr.Plain]
  | case3 target cs => simp [TypeExpr.Plain]
  | case4 name cs => simp [TypeExpr.Plain]
  | case5 other hoptional harray =>
      exact ⟨fun _ inner cs => ⟨hoptional inner cs, harray inner cs⟩, fun _ => rfl⟩

/-- A name that is no reference leads to an entity only where one is declared. -/
theorem filter_target (t : Symbols) (τ : TypeExpr) :
    (ofType t τ).target.filter (t.has .entity) = τ.innermost.named?.filter (t.has .entity) := by
  fun_induction ofType t τ with
  | case1 inner cs s ih => exact ih
  | case2 element cs s ih => exact ih
  | case3 target cs => rfl
  | case4 name cs =>
      have hinner : (TypeExpr.custom name cs).innermost = .custom name cs := by
        simp only [TypeExpr.innermost]
      rw [hinner, TypeExpr.named?]
      cases h : t.has .entity name <;> simp [Option.filter, h]
  | case5 other hoptional harray hreference hcustom =>
      cases other with
      | optional inner cs => exact (hoptional inner cs rfl).elim
      | array element cs => exact (harray element cs rfl).elim
      | reference target cs => exact (hreference target cs rfl).elim
      | custom name cs => exact (hcustom name cs rfl).elim
      | _ => rfl

end FieldShape

namespace Relationships

theorem statedKind?_eq (t : Symbols) (τ : TypeExpr) :
    τ.statedKind? = match stated (FieldShape.ofType t τ).constraints with
      | .kind k => some k
      | _ => none := by
  rw [TypeExpr.statedKind?, stated, FieldShape.get?_constraints]
  cases τ.merged? "relation" with
  | none => rfl
  | some v =>
      cases v with
      | scalar s =>
          cases s with
          | str s =>
              show RelationshipKind.ofLabel? s = _
              dsimp only
              cases RelationshipKind.ofLabel? s <;> rfl
          | _ => rfl
      | _ => rfl

theorem statedTarget_eq (t : Symbols) (τ : TypeExpr) (otherwise : Option String) :
    statedTarget (FieldShape.ofType t τ).constraints otherwise = τ.statedTarget?.or otherwise := by
  rw [statedTarget, TypeExpr.statedTarget?, FieldShape.get?_constraints]
  cases τ.merged? "target" with
  | none => rfl
  | some v =>
      cases v with
      | scalar s => cases s <;> rfl
      | _ => rfl

/-- What a field of the type gives, if that leads to an entity. -/
def candidate? (t : Symbols) (entity field : String) (τ : TypeExpr) : Option RelationCandidate :=
  let shape := FieldShape.ofType t τ
  (τ.pointsTo?.filter (t.has .entity)).map fun target =>
    ⟨entity, field, target, shape.isOptional, shape.isCollection, τ.statedKind?⟩

theorem bind_eq_map_filter {α β : Type} (x : Option α) (p : α → Bool) (f : α → β) :
    (x.bind fun a => if p a then some (f a) else none) = (x.filter p).map f := by
  cases x with
  | none => rfl
  | some a => cases h : p a <;> simp [Option.filter, h]

theorem fst_ofField (t : Symbols) (entity path : String) (f : EntityField) :
    (ofField t entity path f).1 = f.type.bind (candidate? t entity f.name) := by
  rw [ofField]
  cases f.type with
  | none => rfl
  | some τ =>
      have hkind := statedKind?_eq t τ
      have hnamed := FieldShape.filter_target t τ
      rw [Option.bind_some, candidate?, TypeExpr.pointsTo?]
      simp only [bind_eq_map_filter, statedTarget_eq]
      cases hstated : stated (FieldShape.ofType t τ).constraints with
      | none =>
          rw [hkind, hstated]
          dsimp only
          rw [hnamed, Option.bind_none, Option.none_or]
      | unknown text =>
          rw [hkind, hstated]
          dsimp only
          rw [hnamed, Option.bind_none, Option.none_or]
      | kind k =>
          rw [hkind, hstated]
          cases τ.statedTarget? with
          | none =>
              dsimp only
              rw [Option.none_or, hnamed]
              rfl
          | some target => rfl

end Relationships

end AppSpec
