import AppSpec.Document.Positions
import AppSpec.Proofs.Sorting

/-!
The order of diagnostics. Diagnostics that compare as equal agree in path, category and message, and
where a diagnostic is placed in a text does not count.
-/

namespace AppSpec.Diagnostic

theorem order_eq_compareLex : order =
    compareLex (compareOn fun d => layerRank d.path) (compareLex (compareOn path)
      (compareLex (compareOn fun d => d.category.label) (compareOn message))) := rfl

instance : Std.TransCmp order := by
  rw [order_eq_compareLex]
  infer_instance

variable {d e : Diagnostic}

theorem order_eq_iff : order d e = .eq ↔
    layerRank d.path = layerRank e.path ∧ d.path = e.path ∧ d.category.label = e.category.label ∧
      d.message = e.message := by
  simp [order, Ordering.then_eq_eq]

theorem eq_of_order (h : order d e = .eq) :
    d.path = e.path ∧ d.category = e.category ∧ d.message = e.message := by
  obtain ⟨-, hpath, hcategory, hmessage⟩ := order_eq_iff.mp h
  have hlabel := congrArg Category.ofLabel? hcategory
  rw [Category.ofLabel?_label, Category.ofLabel?_label] at hlabel
  exact ⟨hpath, Option.some.inj hlabel, hmessage⟩

/-- Diagnostics that differ in path and message alone are told apart by their order. -/
theorem make_eq_of_order {category : Category} {severity : Severity} {path path' message message' : String}
    {suggestion : Option String}
    (h : order (make category severity path message suggestion)
      (make category severity path' message' suggestion) = .eq) :
    make category severity path message suggestion =
      make category severity path' message' suggestion := by
  obtain ⟨hpath, -, hmessage⟩ := eq_of_order h
  have hpath : path = path' := hpath
  have hmessage : message = message' := hmessage
  rw [hpath, hmessage]

theorem locate_eq_or_placed (positions : Positions) (d : Diagnostic) :
    d.locate positions = d ∨ ∃ line column, d.locate positions = d.placed line column := by
  unfold locate
  split
  · exact .inl rfl
  · split
    · exact .inl rfl
    · split
      · exact .inl rfl
      · split <;> exact .inr ⟨_, _, rfl⟩

theorem order_locate (positions : Positions) (d e : Diagnostic) :
    order (d.locate positions) e = order d e := by
  obtain h | ⟨line, column, h⟩ := locate_eq_or_placed positions d <;> rw [h]
  rfl

theorem category_locate (positions : Positions) (d : Diagnostic) :
    (d.locate positions).category = d.category := by
  obtain h | ⟨line, column, h⟩ := locate_eq_or_placed positions d <;> rw [h]
  rfl

theorem severity_locate (positions : Positions) (d : Diagnostic) :
    (d.locate positions).severity = d.severity := by
  obtain h | ⟨line, column, h⟩ := locate_eq_or_placed positions d <;> rw [h]
  rfl

end AppSpec.Diagnostic
