import AppSpec.Proofs.Document.Parts
import AppSpec.Proofs.Document.Total

/-!
Documents that are validated layer by layer, and documents that are rejected before that with a
single fatal diagnostic.
-/

namespace AppSpec.Document

variable {s : Settings} {g : RawGraph} {v : Value} {entries : Entries} {positions : Positions}
  {r : ValidationResult}

theorem validate_dict_eq_ok (h : entries ≠ []) : validate s (.dict entries) positions = .ok r ↔
    (Value.dict entries).hasLongKey = false ∧ ∃ result, check s entries = .ok result ∧
      { result with diagnostics :=
          Diagnostic.sorted (result.diagnostics.map (Diagnostic.locate positions)) } = r := by
  have hvalidate : validate s (.dict entries) positions = (do
      if (Value.dict entries).hasLongKey then throw .integerTooLong
      let result ← check s entries
      return { result with
        diagnostics := Diagnostic.sorted (result.diagnostics.map (Diagnostic.locate positions)) }) := by
    cases entries with
    | nil => exact absurd rfl h
    | cons e entries => rfl
  rw [hvalidate]
  split
  · next hlong => simp [hlong, throw, throwThe, MonadExceptOf.throw, bind, Except.bind]
  · next hshort =>
      rw [Bool.not_eq_true] at hshort
      constructor
      · intro h
        obtain ⟨result, hcheck, h⟩ := bind_eq_ok.mp h
        cases h
        exact ⟨hshort, result, hcheck, rfl⟩
      · rintro ⟨-, result, hcheck, rfl⟩
        exact bind_eq_ok.mpr ⟨result, hcheck, rfl⟩

theorem validateGraph_of_empty (h : ¬ g.HasEntries) (s : Settings) (positions : Positions) :
    validateGraph s g positions = validate s g.value positions := by
  obtain ⟨nodes, root⟩ := g
  cases root with
  | value v =>
      cases v with
      | scalar key => cases key <;> rfl
      | dict entries =>
          cases entries with
          | nil => rfl
          | cons e entries => exact absurd (.value rfl) h
      | _ => rfl
  | tuple items => rfl
  | node index =>
      rw [validateGraph, RawGraph.rootKind, RawGraph.value, RawGraph.unfoldItem, RawGraph.unfold]
      dsimp only
      cases hnode : nodes[index]? with
      | none => rfl
      | some node =>
          cases node with
          | dict entries =>
              cases entries with
              | nil => rfl
              | cons e entries => exact absurd (.node rfl hnode) h
          | _ => rfl

/-- A document without a way back into itself is validated as the value it unfolds to. -/
theorem validateGraph_eq_validate (h : ¬ g.SelfContaining) (s : Settings) (positions : Positions) :
    validateGraph s g positions = validate s g.value positions := by
  by_cases hentries : g.HasEntries
  · exact validateGraph_of_finite hentries h s positions
  · exact validateGraph_of_empty hentries s positions

theorem ordinary_or_rejected (h : validateGraph s g positions = .ok r) :
    g.HasEntries ∧ ¬ g.SelfContaining ∨ ∃ message, r = rejected message positions := by
  by_cases hentries : g.HasEntries
  · by_cases hself : g.SelfContaining
    · rcases validateGraph_of_selfContaining hentries hself s positions with
        ⟨message, hreject⟩ | ⟨hstop, -⟩
      · exact .inr ⟨message, Except.ok.inj (h.symm.trans hreject)⟩
      · cases hstop.symm.trans h
    · exact .inl ⟨hentries, hself⟩
  · obtain ⟨message, hreject⟩ := validateGraph_of_not_hasEntries hentries s positions
    exact .inr ⟨message, Except.ok.inj (h.symm.trans hreject)⟩

/-- Without a fatal diagnostic a document is not rejected. -/
theorem finite_of_not_fatal (h : validateGraph s g positions = .ok r)
    (hfatal : ∀ d ∈ r.diagnostics, d.severity ≠ .fatal) : g.HasEntries ∧ ¬ g.SelfContaining := by
  refine (ordinary_or_rejected h).resolve_right ?_
  rintro ⟨message, rfl⟩
  obtain ⟨-, d, hd, hsevere⟩ := rejected_fatal message positions
  exact hfatal d (hd ▸ List.mem_singleton_self d) hsevere

/-- A mapping with entries that does not contain itself is loaded and checked. -/
theorem exists_checked (h : validateGraph s g positions = .ok r) (hentries : g.HasEntries)
    (hfinite : ¬ g.SelfContaining) :
    ∃ entries d result, g.value = .dict entries ∧ Checked s entries d result ∧
      { result with diagnostics :=
          Diagnostic.sorted (result.diagnostics.map (Diagnostic.locate positions)) } = r := by
  obtain ⟨e, entries, hvalue⟩ := RawGraph.value_of_hasEntries hentries
  rw [validateGraph_of_finite hentries hfinite, hvalue] at h
  obtain ⟨-, result, hcheck, hr⟩ := (validate_dict_eq_ok (List.cons_ne_nil e entries)).mp h
  obtain ⟨d, hchecked⟩ := checked_of_check hcheck
  exact ⟨e :: entries, d, result, hvalue, hchecked, hr⟩

end AppSpec.Document
