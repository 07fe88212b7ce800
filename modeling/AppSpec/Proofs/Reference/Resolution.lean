import AppSpec.Proofs.Document.Integrity
import AppSpec.Proofs.Reference.Order

/-!
What resolving makes of any references against any frozen table: a record of each, in order, and an
error for each that dangles. The order of the references does not show, as long as those with one
path, name and kind ask in the same namespaces.
-/

namespace AppSpec

/-- The reference that a record is of. -/
def ReferenceRecord.reference (r : ReferenceRecord) : DeferredReference :=
  ⟨r.path, r.name, r.spaces, r.kind⟩

namespace Resolve

open Symbols

variable {t : Symbols} {name : String} {spaces : List Namespace} {ns : Namespace}
  {references references' : List DeferredReference}

/-! ### Names -/

/-- The namespace is the first of those that are asked for in which the name is declared. -/
def FirstDeclaring (t : Symbols) (name : String) (spaces : List Namespace) (ns : Namespace) : Prop :=
  ∃ before behind, spaces = before ++ ns :: behind ∧ name ∈ t.names ns ∧
    ∀ other ∈ before, name ∉ t.names other

theorem declaring?_eq_some : declaring? t name spaces = some ns ↔ FirstDeclaring t name spaces ns := by
  rw [declaring?, List.find?_eq_some_iff_append]
  simp only [FirstDeclaring, SymbolTable.mem_names, Bool.not_eq_true', Bool.not_eq_true]
  constructor
  · rintro ⟨hns, before, behind, hspaces, hbefore⟩
    exact ⟨before, behind, hspaces, hns, hbefore⟩
  · rintro ⟨before, behind, hspaces, hns, hbefore⟩
    exact ⟨hns, before, behind, hspaces, hbefore⟩

theorem declaring?_eq_none : declaring? t name spaces = none ↔ ∀ ns ∈ spaces, name ∉ t.names ns := by
  simp only [declaring?, List.find?_eq_none, SymbolTable.mem_names]

theorem outcome_byName (t : Symbols) (r : DeferredReference) : (byName t r).outcome =
    ((declaring? t r.name r.spaces).map Outcome.resolved).getD (.dangling none) := by
  rw [byName]
  cases declaring? t r.name r.spaces <;> rfl

theorem outcome_byName_resolved {r : DeferredReference} :
    (byName t r).outcome = .resolved ns ↔ FirstDeclaring t r.name r.spaces ns := by
  rw [outcome_byName, ← declaring?_eq_some]
  cases declaring? t r.name r.spaces <;> simp

theorem outcome_byName_dangling {r : DeferredReference} :
    (byName t r).outcome = .dangling none ↔ ∀ ns ∈ r.spaces, r.name ∉ t.names ns := by
  rw [outcome_byName, ← declaring?_eq_none]
  cases declaring? t r.name r.spaces <;> simp

/-! ### Records -/

/-- By path, then by name, then by the label of the kind. -/
def NoLater (a b : ReferenceRecord) : Prop :=
  a.path < b.path ∨ a.path = b.path ∧
    (a.name < b.name ∨ a.name = b.name ∧ a.kind.label ≤ b.kind.label)

theorem noLater_of_order {a b : ReferenceRecord} (h : (order a b).isLE = true) : NoLater a b := by
  rw [order, Ordering.isLE_then_iff_or, Ordering.isLE_then_iff_or, compare_lt_iff_lt,
    compare_eq_iff_eq, compare_lt_iff_lt, compare_eq_iff_eq] at h
  exact h.imp_right (.imp_right (.imp_right (.imp_right fun hlabel =>
    compare_le_iff_le.mp (Ordering.ne_gt_iff_isLE.mpr hlabel))))

/-- References with the same path, name and kind ask in the same namespaces. -/
def SpacesAgree (references : List DeferredReference) : Prop :=
  ∀ a ∈ references, ∀ b ∈ references, a.path = b.path → a.name = b.name → a.kind = b.kind →
    a.spaces = b.spaces

/-! ### Diagnostics -/

theorem category_errorClash {d : Diagnostic} (h : errorClash t name = some d) :
    d.category = .consistency := by
  obtain ⟨ns, -, rfl⟩ := Option.map_eq_some_iff.mp h
  rfl

theorem diagnostic?_isNone {r : DeferredReference} :
    diagnostic? t r = none ↔ (record t r).isDangling = false := by
  rw [← Option.isNone_iff_eq_none, ← Option.not_isSome, diagnostic?, Resolution.isSome_diagnostic?,
    Bool.not_eq_true']
  rfl

theorem diagnostic?_place {r : DeferredReference} {d : Diagnostic} (h : diagnostic? t r = some d) :
    d.category = .reference ∧ (d.severity, d.location) = (.error, { path := r.path }) := by
  rw [diagnostic?] at h
  cases hone : one t r with
  | found ns =>
      rw [hone] at h
      cases h
  | dangling ns cause hint =>
      rw [hone] at h
      cases h
      exact ⟨rfl, rfl⟩

theorem map_diagnostics (t : Symbols) (references : List DeferredReference) :
    ((references.filterMap (diagnostic? t)).map fun d => (d.severity, d.location)) =
      ((references.map (record t)).filter (·.isDangling)).map fun r =>
        (Severity.error, { path := r.path }) := by
  induction references with
  | nil => rfl
  | cons r references ih =>
      rw [List.filterMap_cons, List.map_cons, List.filter_cons]
      cases hd : diagnostic? t r with
      | none =>
          rw [diagnostic?_isNone.mp hd]
          exact ih
      | some d =>
          have hdangling : (record t r).isDangling = true := by
            rw [← Bool.not_eq_false, ← diagnostic?_isNone, hd]
            exact nofun
          rw [hdangling]
          exact congrArg₂ List.cons (diagnostic?_place hd).2 ih

theorem filter_diagnostics (t : Symbols) (references : List DeferredReference) (names : List String) :
    (references.filterMap (diagnostic? t) ++ names.filterMap (errorClash t)).filter
        (·.category == .reference) = references.filterMap (diagnostic? t) := by
  have hreference : ∀ d ∈ references.filterMap (diagnostic? t), d.category = .reference := by
    intro d hd
    obtain ⟨r, -, hd⟩ := List.mem_filterMap.mp hd
    exact (diagnostic?_place hd).1
  have hclash : ∀ d ∈ names.filterMap (errorClash t), d.category = .consistency := by
    intro d hd
    obtain ⟨name, -, hd⟩ := List.mem_filterMap.mp hd
    exact category_errorClash hd
  rw [List.filter_append, List.filter_eq_self.mpr fun d hd => by simp [hreference d hd],
    List.filter_eq_nil_iff.mpr fun d hd => by simp [hclash d hd], List.append_nil]

end Resolve

theorem resolveAll_frozen {t : Symbols} (ht : t.frozen = true) (references : List DeferredReference) :
    resolveAll t references = .ok
      { records := (references.map (Resolve.record t)).mergeSort fun a b =>
          (Resolve.order a b).isLE
        diagnostics := references.filterMap (Resolve.diagnostic? t) ++
          (t.names .error).filterMap (Resolve.errorClash t) } := by
  rw [resolveAll, ht]
  rfl

open Resolve in
/-- Resolving gives a record of each reference, in order, and an error at the path of each record
that dangles. By name, the first namespace counts that declares it. -/
theorem resolveAll_exact (t : Symbols) (references : List DeferredReference)
    (ht : t.frozen = true) :
    ∃ resolved, resolveAll t references = .ok resolved ∧
      (resolved.records.map (·.reference)).Perm references ∧
      resolved.records.Pairwise NoLater ∧
      ((resolved.diagnostics.filter (·.category == .reference)).map fun d =>
          (d.severity, d.location)).Perm
        ((resolved.records.filter (·.isDangling)).map fun r =>
          (Severity.error, { path := r.path })) ∧
      (∀ r ∈ resolved.records, r.kind ≠ .field → r.kind ≠ .mappingTarget →
        (∀ ns, r.outcome = .resolved ns ↔ FirstDeclaring t r.name r.spaces ns) ∧
          (r.outcome = .dangling none ↔ ∀ ns ∈ r.spaces, r.name ∉ t.names ns)) ∧
      (SpacesAgree references → ∀ references', references.Perm references' →
        ∃ resolved', resolveAll t references' = .ok resolved' ∧
          resolved.records = resolved'.records ∧
          resolved.diagnostics.Perm resolved'.diagnostics) := by
  have hresolved (references : List DeferredReference) := resolveAll_frozen ht references
  have hsort := List.mergeSort_perm (references.map (record t))
    fun a b => (order a b).isLE
  refine ⟨_, hresolved references, ?_, ?_, ?_, ?_, ?_⟩
  · have hreferences : (references.map (record t)).map (·.reference) = references := by
      rw [List.map_map]
      exact List.map_id _
    have hperm := hsort.map (·.reference)
    rwa [hreferences] at hperm
  · exact (List.pairwise_mergeSort (fun _ _ _ => Std.TransCmp.isLE_trans) SameClasses.isLE_total _).imp
      noLater_of_order
  · rw [filter_diagnostics, map_diagnostics]
    exact ((hsort.filter _).map _).symm
  · intro record hrecord hfield htarget
    obtain ⟨r, -, rfl⟩ := List.mem_map.mp (hsort.mem_iff.mp hrecord)
    have hone := one_byName ⟨hfield, htarget⟩ t
    rw [Resolve.record, hone]
    exact ⟨fun ns => outcome_byName_resolved, outcome_byName_dangling⟩
  · intro hspaces references' hperm
    refine ⟨_, hresolved references', ?_, (hperm.filterMap _).append_right _⟩
    refine (SameClasses.of_perm (hperm.map _) fun a ha b hb hab => ?_).mergeSort_eq
    obtain ⟨r, hr, rfl⟩ := List.mem_map.mp ha
    obtain ⟨r', hr', rfl⟩ := List.mem_map.mp hb
    rw [eq_of_order_of_spaces (hspaces r hr r' hr') hab]

theorem resolveAll_exact_displays :
    let t : Symbols := ⟨[⟨.entity, "Order", "domain.Order", none⟩], true⟩
    let references : List DeferredReference :=
      [⟨"ui.Shop", "Orders", [.entity], .display⟩, ⟨"ui.Home", "Order", [.entity], .display⟩,
        ⟨"ui.Home", "Order", [.entity], .display⟩]
    t.frozen = true ∧ Resolve.SpacesAgree references ∧
      ∃ resolved resolved', resolveAll t references = .ok resolved ∧
        (resolved.records.map (·.reference)).Perm references ∧
        resolveAll t references.reverse = .ok resolved' ∧ resolved.records = resolved'.records ∧
        resolved.diagnostics.Perm resolved'.diagnostics := by
  intro t references
  have hspaces : Resolve.SpacesAgree references := by
    unfold Resolve.SpacesAgree
    decide
  obtain ⟨resolved, hresolved, hrecords, -, -, -, hreordered⟩ :=
    resolveAll_exact t references rfl
  obtain ⟨resolved', hresolved', hsame⟩ :=
    hreordered hspaces references.reverse (List.reverse_perm references).symm
  exact ⟨rfl, hspaces, resolved, resolved', hresolved, hrecords, hresolved', hsame⟩

end AppSpec
