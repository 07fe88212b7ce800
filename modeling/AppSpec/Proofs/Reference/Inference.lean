import AppSpec.Proofs.Reference.Shape
import AppSpec.Proofs.SymbolTable.Alike

/-!
The relationships that entities give: one for each field that leads to an entity, of a kind that is
stated or follows from all of them together, and the same in whatever order the fields stand.
-/

namespace AppSpec

namespace Relationships

variable {t t' : Symbols} {paths : Named String} {es es' : List Entity} {c : RelationCandidate}
  {source field : String} {τ : TypeExpr}

/-- No two entities, and no two fields of an entity, have one name. -/
structure Distinct (es : List Entity) : Prop where
  entities : (es.map Entity.name).Nodup
  fields : ∀ e ∈ es, (e.fields.values.map EntityField.name).Nodup

/-- One of the entities has a field of the type. -/
def Typed (es : List Entity) (source field : String) (τ : TypeExpr) : Prop :=
  ∃ e ∈ es, ∃ f ∈ e.fields.values, e.name = source ∧ f.name = field ∧ f.type = some τ

/-- The same entities with the same fields, in any order. -/
def SameFields (es es' : List Entity) : Prop :=
  ∃ shuffled, es.Perm shuffled ∧
    List.Forall₂ (fun e e' => e.name = e'.name ∧ e.fields.Perm e'.fields) shuffled es'

/-! ### Fields -/

/-- The fields of all entities, each with the name of its entity. -/
def fieldsOf (es : List Entity) : List (String × EntityField) :=
  es.flatMap fun e => e.fields.values.map fun f => (e.name, f)

theorem typed_iff : Typed es source field τ ↔
    ∃ f, (source, f) ∈ fieldsOf es ∧ f.name = field ∧ f.type = some τ := by
  simp only [Typed, fieldsOf, List.mem_flatMap, List.mem_map, Prod.mk.injEq]
  constructor
  · rintro ⟨e, he, f, hf, hname, hfield, htype⟩
    exact ⟨f, ⟨e, he, f, hf, hname, rfl⟩, hfield, htype⟩
  · rintro ⟨_, ⟨e, he, f, hf, hname, rfl⟩, hfield, htype⟩
    exact ⟨e, he, f, hf, hname, hfield, htype⟩

theorem Distinct.nodup (h : Distinct es) :
    ((fieldsOf es).map fun p => (p.1, p.2.name)).Nodup := by
  rw [fieldsOf, List.map_flatMap, List.nodup_flatMap]
  refine ⟨fun e he => ?_, ?_⟩
  · rw [List.map_map]
    have hfields := (h.fields e he).map (Prod.mk_right_injective e.name)
    rwa [List.map_map] at hfields
  · refine (List.pairwise_map.mp h.entities).imp fun {e e'} hne key hkey hkey' => hne ?_
    dsimp only at hkey hkey'
    rw [List.map_map] at hkey hkey'
    obtain ⟨f, -, rfl⟩ := List.mem_map.mp hkey
    obtain ⟨f', -, heq⟩ := List.mem_map.mp hkey'
    exact (congrArg Prod.fst heq).symm

theorem Distinct.typed_unique (h : Distinct es) {τ' : TypeExpr} (hτ : Typed es source field τ)
    (hτ' : Typed es source field τ') : τ = τ' := by
  obtain ⟨f, hf, rfl, htype⟩ := typed_iff.mp hτ
  obtain ⟨f', hf', hname, htype'⟩ := typed_iff.mp hτ'
  have hsame := List.inj_on_of_nodup_map h.nodup hf hf' (Prod.ext rfl hname.symm)
  cases hsame
  exact Option.some.inj (htype.symm.trans htype')

theorem SameFields.perm (h : SameFields es es') : (fieldsOf es).Perm (fieldsOf es') := by
  obtain ⟨shuffled, hperm, hsame⟩ := h
  have hfields : (fieldsOf shuffled).Perm (fieldsOf es') := by
    clear hperm
    induction hsame with
    | nil => exact .refl _
    | cons h _ ih =>
        obtain ⟨hname, hfields⟩ := h
        rw [fieldsOf, fieldsOf, List.flatMap_cons, List.flatMap_cons, hname]
        exact ((hfields.map _).map _).append ih
  exact (hperm.flatMap_right _).trans hfields

/-! ### Candidates -/

def allCandidates (t : Symbols) (es : List Entity) : List RelationCandidate :=
  (fieldsOf es).filterMap fun p => p.2.type.bind (candidate? t p.1 p.2.name)

theorem flatMap_candidates (t : Symbols) (paths : Named String) (es : List Entity) :
    es.flatMap (candidates t paths) = allCandidates t es := by
  rw [allCandidates, fieldsOf, List.filterMap_flatMap]
  congr 1
  funext e
  rw [candidates, ofEntity, List.filterMap_map, List.filterMap_map]
  exact congrArg (List.filterMap · _) (funext fun f => fst_ofField t e.name _ f)

theorem candidate?_congr (h : SameEntities t t') : candidate? t = candidate? t' := by
  have hhas : t.has .entity = t'.has .entity := funext h
  funext source field τ
  rw [candidate?, candidate?, FieldShape.ofType_congr h, hhas]

/-- What a candidate tells of the type of its field. -/
structure Drawn (t : Symbols) (τ : TypeExpr) (c : RelationCandidate) : Prop where
  target : τ.pointsTo? = some c.target
  declared : c.target ∈ t.names .entity
  plain : (!c.isOptional && !c.isCollection) = true ↔ τ.Plain
  collection : c.isCollection = true ↔ τ.Collection
  stated : c.stated = τ.statedKind?

theorem candidate?_eq_some (h : candidate? t source field τ = some c) :
    c.source = source ∧ c.field = field ∧ Drawn t τ c := by
  obtain ⟨target, htarget, rfl⟩ := Option.map_eq_some_iff.mp h
  obtain ⟨hpoints, hhas⟩ := Option.filter_eq_some_iff.mp htarget
  exact ⟨rfl, rfl, hpoints, SymbolTable.mem_names.mpr hhas, FieldShape.required_iff t τ,
    FieldShape.isCollection_iff t τ, rfl⟩

theorem exists_candidate {target : String} (hpoints : τ.pointsTo? = some target)
    (hdeclared : target ∈ t.names .entity) (source field : String) :
    ∃ c, candidate? t source field τ = some c ∧ c.target = target := by
  rw [candidate?, Option.filter_eq_some_iff.mpr ⟨hpoints, SymbolTable.mem_names.mp hdeclared⟩]
  exact ⟨_, rfl, rfl⟩

theorem mem_allCandidates : c ∈ allCandidates t es ↔
    ∃ τ, Typed es c.source c.field τ ∧ candidate? t c.source c.field τ = some c := by
  simp only [allCandidates, List.mem_filterMap, typed_iff]
  constructor
  · rintro ⟨⟨source, f⟩, hf, hc⟩
    obtain ⟨τ, htype, hc⟩ := Option.bind_eq_some_iff.mp hc
    obtain ⟨rfl, hfield, -⟩ := candidate?_eq_some hc
    exact ⟨τ, ⟨f, hf, hfield.symm, htype⟩, hfield ▸ hc⟩
  · rintro ⟨τ, ⟨f, hf, hfield, htype⟩, hc⟩
    exact ⟨_, hf, Option.bind_eq_some_iff.mpr ⟨τ, htype, hfield ▸ hc⟩⟩

theorem Distinct.nodup_candidates (h : Distinct es) :
    ((allCandidates t es).map fun c => (c.source, c.field)).Nodup := by
  rw [List.Nodup, List.pairwise_map, allCandidates, List.pairwise_filterMap]
  refine (List.pairwise_map.mp h.nodup).imp fun {p p'} hne c hc c' hc' hkey => hne ?_
  obtain ⟨τ, -, hc⟩ := Option.bind_eq_some_iff.mp hc
  obtain ⟨τ', -, hc'⟩ := Option.bind_eq_some_iff.mp hc'
  obtain ⟨hsource, hfield, -⟩ := candidate?_eq_some hc
  obtain ⟨hsource', hfield', -⟩ := candidate?_eq_some hc'
  rw [← hsource, ← hfield, ← hsource', ← hfield']
  exact hkey

/-! ### Relationships -/

/-- By the source, then by the field. -/
def Earlier (a b : Relationship) : Prop :=
  a.source < b.source ∨ a.source = b.source ∧ a.field < b.field

theorem earlier_of_order {a b : Relationship} (h : (order a b).isLE = true)
    (hne : (a.source, a.field) ≠ (b.source, b.field)) : Earlier a b := by
  rw [order, Ordering.isLE_then_iff_or, compare_lt_iff_lt, compare_eq_iff_eq] at h
  obtain hsource | hle := h
  · exact .inl hsource
  · have hfield := compare_le_iff_le.mp (Ordering.ne_gt_iff_isLE.mpr hle.2)
    exact .inr ⟨hle.1, hfield.lt_of_ne fun heq => hne (Prod.ext hle.1 heq)⟩

/-- A collection that leads from the target to the source. -/
def LeadsBack (es : List Entity) (r back : Relationship) : Prop :=
  back.source = r.target ∧ back.target = r.source ∧
    ∃ τ, Typed es back.source back.field τ ∧ τ.Collection

/-- What a relationship is where its field has the type and all relationships are these. -/
structure Describes (t : Symbols) (es : List Entity) (all : List Relationship) (τ : TypeExpr)
    (r : Relationship) : Prop where
  target : τ.pointsTo? = some r.target
  declared : r.target ∈ t.names .entity
  required : r.required = true ↔ τ.Plain
  explicit : r.explicit = true ↔ ∃ k, τ.statedKind? = some k
  stated : ∀ k, τ.statedKind? = some k → r.kind = k
  manyToMany : r.explicit = false →
    (r.kind = .manyToMany ↔ τ.Collection ∧ ∃ back ∈ all, LeadsBack es r back)
  oneToMany : r.explicit = false →
    (r.kind = .oneToMany ↔ τ.Collection ∧ ¬ ∃ back ∈ all, LeadsBack es r back)
  manyToOne : r.explicit = false → (r.kind = .manyToOne ↔ ¬ τ.Collection)
  junction : r.kind = .manyToMany → r.junction = some (junctionName r.source r.target)

theorem junctionName_comm (a b : String) : junctionName a b = junctionName b a := by
  rw [junctionName, junctionName]
  split
  · next hle =>
      split
      · next hge => rw [le_antisymm hle hge]
      · rfl
  · next hle => rw [if_pos (le_of_not_ge hle)]

def related (cs : List RelationCandidate) : List Relationship := cs.map (relationship cs)

theorem Distinct.nodup_related (h : Distinct es) (t : Symbols) :
    ((related (allCandidates t es)).map fun r => (r.source, r.field)).Nodup := by
  rw [related, List.map_map]
  exact h.nodup_candidates

theorem eq_of_order (hes : Distinct es) {a b : Relationship}
    (ha : a ∈ related (allCandidates t es)) (hb : b ∈ related (allCandidates t es))
    (h : order a b = .eq) : a = b := by
  have hkey : a.source = b.source ∧ a.field = b.field := by
    simpa [order, Ordering.then_eq_eq] using h
  exact List.inj_on_of_nodup_map (hes.nodup_related t) ha hb (Prod.ext hkey.1 hkey.2)

variable {all : List Relationship}

theorem hasReverse_iff (hes : Distinct es) (hall : all.Perm (related (allCandidates t es))) :
    hasReverse (allCandidates t es) c = true ↔
      ∃ back ∈ all, LeadsBack es (relationship (allCandidates t es) c) back := by
  rw [hasReverse, List.any_eq_true]
  constructor
  · rintro ⟨d, hd, hback⟩
    simp only [Bool.and_eq_true, beq_iff_eq] at hback
    obtain ⟨⟨hcollection, hsource⟩, htarget⟩ := hback
    obtain ⟨τ, hτ, hdrawn⟩ := mem_allCandidates.mp hd
    exact ⟨_, hall.mem_iff.mpr (List.mem_map_of_mem hd), hsource, htarget, τ, hτ,
      (candidate?_eq_some hdrawn).2.2.collection.mp hcollection⟩
  · rintro ⟨back, hback, hsource, htarget, τ, hτ, hcollection⟩
    obtain ⟨d, hd, rfl⟩ := List.mem_map.mp (hall.mem_iff.mp hback)
    obtain ⟨τ', hτ', hdrawn⟩ := mem_allCandidates.mp hd
    obtain rfl := hes.typed_unique hτ hτ'
    have hd' := (candidate?_eq_some hdrawn).2.2.collection.mpr hcollection
    refine ⟨d, hd, ?_⟩
    simp only [Bool.and_eq_true, beq_iff_eq]
    exact ⟨⟨hd', hsource⟩, htarget⟩

theorem kind_inferred {cs : List RelationCandidate} (h : (relationship cs c).explicit = false) :
    (relationship cs c).kind =
      if c.isCollection then if hasReverse cs c then .manyToMany else .oneToMany
      else .manyToOne := by
  have hstated : c.stated = none := Option.isSome_eq_false_iff.mp h |> Option.isNone_iff_eq_none.mp
  simp only [relationship, kindOf, hstated]

theorem describes_relationship (hes : Distinct es)
    (hall : all.Perm (related (allCandidates t es))) (hc : Drawn t τ c) :
    Describes t es all τ (relationship (allCandidates t es) c) := by
  have hback := hasReverse_iff (c := c) hes hall
  refine ⟨hc.target, hc.declared, hc.plain, ?_, ?_, ?_, ?_, ?_, ?_⟩
  · rw [← hc.stated]
    exact Option.isSome_iff_exists
  · intro k hk
    rw [← hc.stated] at hk
    simp only [relationship, kindOf, hk]
  · intro hinferred
    rw [kind_inferred hinferred, ← hback, ← hc.collection]
    cases c.isCollection <;> cases hasReverse (allCandidates t es) c <;> decide
  · intro hinferred
    rw [kind_inferred hinferred, ← hback, ← hc.collection]
    cases c.isCollection <;> cases hasReverse (allCandidates t es) c <;> decide
  · intro hinferred
    rw [kind_inferred hinferred, ← hc.collection]
    cases c.isCollection <;> cases hasReverse (allCandidates t es) c <;> decide
  · intro hkind
    exact if_pos hkind

/-- All collections between two entities, as far as their kind is not stated, are many to many
together. -/
theorem LeadsBack.manyToMany {r back : Relationship} {τ : TypeExpr}
    (hes : Distinct es) (h : LeadsBack es r back) (hr : r ∈ all) (hτ : Typed es r.source r.field τ)
    (hdescribed : Describes t es all τ r) {τ' : TypeExpr}
    (hτ' : Typed es back.source back.field τ') (hback : Describes t es all τ' back)
    (hinferred : r.explicit = false) (hkind : r.kind = .manyToMany)
    (hinferred' : back.explicit = false) :
    back.kind = .manyToMany ∧ ∃ name, r.junction = some name ∧ back.junction = some name := by
  obtain ⟨hsource, htarget, τ'', hτ'', hcollection⟩ := h
  obtain rfl := hes.typed_unique hτ' hτ''
  have hkind' := (hback.manyToMany hinferred').mpr ⟨hcollection, r, hr, htarget.symm, hsource.symm,
    τ, hτ, ((hdescribed.manyToMany hinferred).mp hkind).1⟩
  refine ⟨hkind', _, hdescribed.junction hkind, ?_⟩
  rw [hback.junction hkind', hsource, htarget, junctionName_comm]

end Relationships

open Relationships

theorem relationships_eq (t : Symbols) (es : List Entity) (paths : Named String) :
    (inferRelationships t es paths).relationships =
      (related (allCandidates t es)).mergeSort fun a b => (order a b).isLE := by
  rw [inferRelationships_eq, flatMap_candidates]
  rfl

section Stated

variable {t : Symbols} {es : List Entity} {paths : Named String} {source field target : String}
  {τ : TypeExpr} {kind : RelationshipKind} {r : Relationship}

theorem Relationships.mem_relationships :
    r ∈ (inferRelationships t es paths).relationships ↔
      ∃ c ∈ allCandidates t es, relationship (allCandidates t es) c = r := by
  rw [relationships_eq, List.mem_mergeSort, related, List.mem_map]

theorem TypeExpr.pointsTo?_of_stated (hkind : τ.statedKind? = some kind)
    (htarget : τ.statedTarget? = some target) : τ.pointsTo? = some target := by
  rw [pointsTo?, hkind, Option.bind_some, htarget, Option.some_or]

/-- A relation that is stated together with an entity as its target is one of the relationships. -/
theorem Relationships.exists_stated (hτ : Typed es source field τ) (hkind : τ.statedKind? = some kind)
    (htarget : τ.statedTarget? = some target) (hdeclared : target ∈ t.names .entity) :
    ∃ r ∈ (inferRelationships t es paths).relationships,
      r.source = source ∧ r.field = field ∧ r.target = target ∧ r.kind = kind := by
  obtain ⟨c, hc, rfl⟩ := exists_candidate (τ.pointsTo?_of_stated hkind htarget) hdeclared source field
  obtain ⟨rfl, rfl, hdrawn⟩ := candidate?_eq_some hc
  refine ⟨_, mem_relationships.mpr ⟨c, mem_allCandidates.mpr ⟨τ, hτ, hc⟩, rfl⟩, rfl, rfl, rfl, ?_⟩
  simp only [relationship, kindOf, hdrawn.stated, hkind]

/-- Where the target is no entity, the field gives no relationship at all. -/
theorem Relationships.not_stated (hes : Distinct es) (hτ : Typed es source field τ)
    (hkind : τ.statedKind? = some kind) (htarget : τ.statedTarget? = some target)
    (hundeclared : target ∉ t.names .entity)
    (hr : r ∈ (inferRelationships t es paths).relationships) (hsource : r.source = source) :
    r.field ≠ field := by
  rintro rfl
  subst hsource
  obtain ⟨c, hc, rfl⟩ := mem_relationships.mp hr
  obtain ⟨τ', hτ', hc⟩ := mem_allCandidates.mp hc
  obtain rfl := hes.typed_unique hτ hτ'
  obtain ⟨-, -, hdrawn⟩ := candidate?_eq_some hc
  have hsame := hdrawn.target.symm.trans (τ.pointsTo?_of_stated hkind htarget)
  exact hundeclared (Option.some.inj hsame ▸ hdrawn.declared)

end Stated

/-- Entities whose fields have names of their own give relationships in a strict order by source and
field, one for each field that leads to an entity. A kind that is not stated follows from the type
of the field and, for a collection, from whether another leads back; the order of the fields and of
the entities does not show. -/
theorem inferRelationships_exact (t : Symbols) (es : List Entity) (paths : Named String)
    (hes : Distinct es) :
    let all := (inferRelationships t es paths).relationships
    all.Pairwise Earlier ∧
      (∀ r ∈ all, ∃ τ, Typed es r.source r.field τ ∧ Describes t es all τ r) ∧
      (∀ source field τ target, Typed es source field τ → τ.pointsTo? = some target →
        target ∈ t.names .entity →
          ∃ r ∈ all, r.source = source ∧ r.field = field ∧ r.target = target) ∧
      (∀ r ∈ all, ∀ back ∈ all, r.explicit = false → back.explicit = false →
        r.kind = .manyToMany → LeadsBack es r back →
          back.kind = .manyToMany ∧ ∃ name, r.junction = some name ∧ back.junction = some name) ∧
      ∀ t' es' paths', SameEntities t t' → SameFields es es' →
        (inferRelationships t' es' paths').relationships = all := by
  intro all
  have hsorted : all = _ := relationships_eq t es paths
  have hall : all.Perm (related (allCandidates t es)) := hsorted ▸ List.mergeSort_perm _ _
  have hmem {r : Relationship} (hr : r ∈ all) :
      ∃ τ, Typed es r.source r.field τ ∧ Describes t es all τ r := by
    obtain ⟨c, hc, rfl⟩ := List.mem_map.mp (hall.mem_iff.mp hr)
    obtain ⟨τ, hτ, hc⟩ := mem_allCandidates.mp hc
    exact ⟨τ, hτ, describes_relationship hes hall (candidate?_eq_some hc).2.2⟩
  refine ⟨?_, fun r => hmem, ?_, ?_, ?_⟩
  · have hle : all.Pairwise fun a b => (order a b).isLE = true :=
      hsorted ▸ List.pairwise_mergeSort (fun _ _ _ => Std.TransCmp.isLE_trans) SameClasses.isLE_total _
    have hne : all.Pairwise fun a b => (a.source, a.field) ≠ (b.source, b.field) := by
      have hkeys := hall.map fun r : Relationship => (r.source, r.field)
      exact List.pairwise_map.mp ((hes.nodup_related t).perm hkeys.symm)
    exact (hle.and hne).imp fun ⟨hle, hne⟩ => earlier_of_order hle hne
  · intro source field τ target hτ hpoints hdeclared
    obtain ⟨c, hc, rfl⟩ := exists_candidate hpoints hdeclared source field
    obtain ⟨rfl, rfl, -⟩ := candidate?_eq_some hc
    exact ⟨_, hall.mem_iff.mpr (List.mem_map_of_mem (mem_allCandidates.mpr ⟨τ, hτ, hc⟩)), rfl, rfl, rfl⟩
  · intro r hr back hback hinferred hinferred' hkind hleads
    obtain ⟨τ, hτ, hdescribed⟩ := hmem hr
    obtain ⟨τ', hτ', hdescribed'⟩ := hmem hback
    exact hleads.manyToMany hes hr hτ hdescribed hτ' hdescribed' hinferred hkind hinferred'
  · intro t' es' paths' ht hfields
    have hcandidates : (allCandidates t es).Perm (allCandidates t' es') := by
      rw [allCandidates, allCandidates, ← candidate?_congr ht]
      exact hfields.perm.filterMap _
    have hrelated : (related (allCandidates t es)).Perm (related (allCandidates t' es')) := by
      rw [related, related, ← relationship_congr hcandidates]
      exact hcandidates.map _
    rw [hsorted, relationships_eq]
    exact (SameClasses.of_perm hrelated fun a ha b hb => eq_of_order hes ha hb).mergeSort_eq.symm

theorem inferRelationships_exact_tasks :
    let user : Entity :=
      ⟨"User", none, [("tasks", ⟨"tasks", some (.array (.reference "Task" []) []), none⟩)], []⟩
    let task : Entity :=
      ⟨"Task", none, [("watchers", ⟨"watchers", some (.array (.custom "User" []) []), none⟩)], []⟩
    let t : Symbols := ⟨[⟨.entity, "User", "domain.User", none⟩,
      ⟨.entity, "Task", "domain.Task", none⟩], true⟩
    Distinct [user, task] ∧
      (∃ r ∈ (inferRelationships t [user, task] []).relationships,
        r.source = "User" ∧ r.field = "tasks" ∧ r.target = "Task") ∧
      (inferRelationships t [task, user] []).relationships =
        (inferRelationships t [user, task] []).relationships := by
  intro user task t
  have hes : Distinct [user, task] := ⟨by decide, by decide⟩
  obtain ⟨-, -, hcomplete, -, horder⟩ := inferRelationships_exact t [user, task] [] hes
  have htasks : Typed [user, task] "User" "tasks" (.array (.reference "Task" []) []) :=
    ⟨user, List.mem_cons_self, _, List.mem_cons_self, rfl, rfl, rfl⟩
  exact ⟨hes, hcomplete _ _ _ "Task" htasks rfl (by decide),
    horder t [task, user] [] (fun _ => rfl)
      ⟨[task, user], List.Perm.swap _ _ _, .cons ⟨rfl, .refl _⟩ (.cons ⟨rfl, .refl _⟩ .nil)⟩⟩

end AppSpec
