import AppSpec.Proofs.DiagnosticOrder
import AppSpec.Proofs.Named.Order
import AppSpec.Reference.Relationships

/-!
Relationships inferred from entities in another order.
-/

namespace AppSpec

variable {t t' : Symbols} {paths paths' : Named String}

/-- The same names are declared as entities; nothing else of a symbol table counts here. -/
def SameEntities (t t' : Symbols) : Prop := ∀ name, t.has .entity name = t'.has .entity name

theorem FieldShape.ofType_congr (h : SameEntities t t') (type : TypeExpr) :
    FieldShape.ofType t type = FieldShape.ofType t' type := by
  fun_induction FieldShape.ofType t type with
  | case1 inner cs s ih => rw [ofType, ← ih]
  | case2 element cs s ih => rw [ofType, ← ih]
  | case3 target cs => rfl
  | case4 name cs => rw [ofType, h]
  | case5 other => rw [ofType] <;> assumption

namespace Relationships

/-! ### What the fields of an entity give -/

theorem ofField_congr (h : SameEntities t t') (entity path : String) (f : EntityField) :
    ofField t entity path f = ofField t' entity path f := by
  rw [ofField, ofField]
  have hhas : t.has .entity = t'.has .entity := funext h
  simp only [FieldShape.ofType_congr h, hhas]

theorem ofEntity_congr (h : SameEntities t t') (hpaths : ∀ name, paths.get? name = paths'.get? name) :
    ofEntity t paths = ofEntity t' paths' := by
  have hfield : ofField t = ofField t' :=
    funext fun entity => funext fun path => funext (ofField_congr h entity path)
  funext e
  rw [ofEntity, ofEntity, hpaths, hfield]

def candidates (t : Symbols) (paths : Named String) (e : Entity) : List RelationCandidate :=
  (ofEntity t paths e).filterMap (·.1)

theorem source_ofField {entity path : String} {f : EntityField} {c : RelationCandidate}
    (h : (ofField t entity path f).1 = some c) : c.source = entity := by
  have hcandidate {target : Option String} {shape : FieldShape} {k : Option RelationshipKind}
      (h : (target.bind fun name => if t.has .entity name then
        some (RelationCandidate.mk entity f.name name shape.isOptional shape.isCollection k)
      else none) = some c) : c.source = entity := by
    obtain ⟨name, -, h⟩ := Option.bind_eq_some_iff.mp h
    split at h
    · cases h
      rfl
    · cases h
  rw [ofField] at h
  split at h
  · cases h
  · dsimp only at h
    split at h <;> exact hcandidate h

theorem source_candidates {e : Entity} {c : RelationCandidate} (h : c ∈ candidates t paths e) :
    c.source = e.name := by
  obtain ⟨found, hfound, hc⟩ := List.mem_filterMap.mp h
  obtain ⟨f, -, rfl⟩ := List.mem_map.mp hfound
  exact source_ofField hc

theorem unknownKind_of_mem {e : Entity} {found : Option RelationCandidate × List Diagnostic}
    (h : found ∈ ofEntity t paths e) {d : Diagnostic} (hd : d ∈ found.2) :
    ∃ path text, d = unknownKind path text := by
  obtain ⟨f, -, rfl⟩ := List.mem_map.mp h
  rw [ofField] at hd
  split at hd
  · cases hd
  · dsimp only at hd
    split at hd
    · cases hd
    · cases hd
    · exact ⟨_, _, List.mem_singleton.mp hd⟩

/-! ### The order of relationships -/

theorem order_eq_compareLex :
    order = compareLex (compareOn Relationship.source) (compareOn Relationship.field) := rfl

instance : Std.TransCmp order := by
  rw [order_eq_compareLex]
  infer_instance

theorem source_eq_of_order {a b : Relationship} (h : order a b = .eq) : a.source = b.source := by
  have horder : a.source = b.source ∧ a.field = b.field := by
    simpa [order, Ordering.then_eq_eq] using h
  exact horder.1

theorem relationship_congr {cs cs' : List RelationCandidate} (h : cs.Perm cs') :
    relationship cs = relationship cs' := by
  funext c
  rw [relationship, relationship, kindOf, kindOf, hasReverse, hasReverse, h.any_eq]

end Relationships

open Relationships

theorem inferRelationships_eq (t : Symbols) (es : List Entity) (paths : Named String) :
    inferRelationships t es paths =
      { relationships := ((es.flatMap (candidates t paths)).map
          (relationship (es.flatMap (candidates t paths)))).mergeSort fun a b => (order a b).isLE
        diagnostics := (es.flatMap (ofEntity t paths)).flatMap (·.2) } := by
  rw [inferRelationships, List.filterMap_flatMap]
  rfl

/-- Entities with names of their own, in another order, give the same relationships. -/
theorem inferRelationships_perm (h : SameEntities t t')
    (hpaths : ∀ name, paths.get? name = paths'.get? name) {es es' : List Entity} (hes : es.Perm es')
    (hnames : (es.map Entity.name).Nodup) :
    (inferRelationships t es paths).relationships = (inferRelationships t' es' paths').relationships ∧
      SameClasses Diagnostic.order (inferRelationships t es paths).diagnostics
        (inferRelationships t' es' paths').diagnostics := by
  have hentity : candidates t paths = candidates t' paths' :=
    funext fun e => by rw [candidates, candidates, ofEntity_congr h hpaths]
  rw [inferRelationships_eq, inferRelationships_eq, ← ofEntity_congr h hpaths, ← hentity]
  constructor
  · refine SameClasses.mergeSort_eq ?_
    rw [← relationship_congr (hes.flatMap_right _), List.map_flatMap, List.map_flatMap]
    refine .flatMap_perm hes fun e he e' he' x hx y hy horder => ?_
    obtain ⟨c, hc, rfl⟩ := List.mem_map.mp hx
    obtain ⟨c', hc', rfl⟩ := List.mem_map.mp hy
    have hsource : c.source = c'.source := source_eq_of_order horder
    exact List.inj_on_of_nodup_map hnames he he'
      ((source_candidates hc).symm.trans (hsource.trans (source_candidates hc')))
  · refine .of_perm ((hes.flatMap_right _).flatMap_right _) fun x hx y hy horder => ?_
    obtain ⟨found, hfound, hx⟩ := List.mem_flatMap.mp hx
    obtain ⟨e, -, hfound⟩ := List.mem_flatMap.mp hfound
    obtain ⟨path, text, rfl⟩ := unknownKind_of_mem hfound hx
    obtain ⟨found', hfound', hy⟩ := List.mem_flatMap.mp hy
    obtain ⟨e', -, hfound'⟩ := List.mem_flatMap.mp hfound'
    obtain ⟨path', text', rfl⟩ := unknownKind_of_mem hfound' hy
    exact Diagnostic.make_eq_of_order horder

theorem inferRelationships_alike (h : SameEntities t t')
    (hpaths : ∀ name, paths.get? name = paths'.get? name) {es es' : Named Entity}
    (hes : es.Reordered Entity.name es') :
    (inferRelationships t es.values paths).relationships =
        (inferRelationships t' es'.values paths').relationships ∧
      SameClasses Diagnostic.order (inferRelationships t es.values paths).diagnostics
        (inferRelationships t' es'.values paths').diagnostics := by
  rcases hes.values_cases with hvalues | hnames
  · have hentity : candidates t paths = candidates t' paths' :=
      funext fun e => by rw [candidates, candidates, ofEntity_congr h hpaths]
    rw [inferRelationships_eq, inferRelationships_eq, ← ofEntity_congr h hpaths, ← hentity, hvalues]
    exact ⟨rfl, .refl _⟩
  · exact inferRelationships_perm h hpaths hes.values_perm hnames

end AppSpec
