import AppSpec.SymbolTable

/-!
What each operation of the symbol table leaves in it.
-/

namespace AppSpec.SymbolTable

variable {δ : Type} {t t' : SymbolTable δ} {ns other : Namespace} {name name' : String}

theorem has_append (declarations : List (Declaration δ)) (frozen : Bool) (d : Declaration δ) :
    has ⟨declarations ++ [d], frozen⟩ other name' =
      (has ⟨declarations, frozen⟩ other name' || (d.space == other && d.name == name')) := by
  rw [has, has, find?, find?, List.find?_append, Option.isSome_or, List.find?_singleton]
  cases d.space == other && d.name == name' <;> rfl

theorem find?_add (t : SymbolTable δ) (frozen : Bool) (d : Declaration δ) :
    find? ⟨t.declarations ++ [d], frozen⟩ other name =
      (t.find? other name).or (if d.space = other ∧ d.name = name then some d else none) := by
  rw [find?, find?, List.find?_append, List.find?_singleton]
  simp

theorem has_of_lookup? {definition : δ} (h : t.lookup? ns name = some definition) :
    t.has ns name = true := by
  obtain ⟨d, hfound, -⟩ := Option.bind_eq_some_iff.mp h
  exact Option.isSome_iff_exists.mpr ⟨d, hfound⟩

/-- A name is refused with the report of its clash, else it is added last. -/
theorem define_eq_ok {definition : δ} {path : String} {refusal : Option Diagnostic}
    (h : t.define ns name definition path = .ok (refusal, t')) :
    (∃ c, t.clash? ns name = some c ∧ refusal = some (c.diagnostic ns name path) ∧ t' = t) ∨
      t.clash? ns name = none ∧ refusal = none ∧
        t' = ⟨t.declarations ++ [⟨ns, name, path, some definition⟩], t.frozen⟩ := by
  rw [define] at h
  split at h
  · cases h
  · split at h
    · next c hclash =>
        cases h
        exact .inl ⟨c, hclash, rfl, rfl⟩
    · next hclash =>
        cases h
        exact .inr ⟨hclash, rfl, rfl⟩

theorem define_accepted {definition : δ} {path : String}
    (h : t.define ns name definition path = .ok (none, t')) :
    t' = ⟨t.declarations ++ [⟨ns, name, path, some definition⟩], t.frozen⟩ := by
  obtain ⟨_, _, hrefused, _⟩ | ⟨_, _, ht'⟩ := define_eq_ok h
  · cases hrefused
  · exact ht'

theorem clash?_of_define {definition : δ} {path : String}
    (h : t.define ns name definition path = .ok (none, t')) : t.clash? ns name = none := by
  obtain ⟨_, _, hrefused, _⟩ | ⟨hclash, _, _⟩ := define_eq_ok h
  · cases hrefused
  · exact hclash

theorem exists_clash_of_define {definition : δ} {path : String} {d : Diagnostic}
    (h : t.define ns name definition path = .ok (some d, t')) :
    ∃ c, t.clash? ns name = some c ∧ d = c.diagnostic ns name path := by
  obtain ⟨c, hclash, hrefused, _⟩ | ⟨_, hrefused, _⟩ := define_eq_ok h
  · exact ⟨c, hclash, Option.some.inj hrefused⟩
  · cases hrefused

theorem define_rejected {definition : δ} {path : String} {d : Diagnostic}
    (h : t.define ns name definition path = .ok (some d, t')) : t' = t := by
  obtain ⟨_, _, _, ht'⟩ | ⟨_, hrefused, _⟩ := define_eq_ok h
  · exact ht'
  · cases hrefused

theorem has_define {definition : δ} {path : String}
    (h : t.define ns name definition path = .ok (none, t')) :
    t'.has other name' = true ↔ t.has other name' = true ∨ other = ns ∧ name' = name := by
  rw [define_accepted h, has_append, Bool.or_eq_true, Bool.and_eq_true, beq_iff_eq, beq_iff_eq,
    @eq_comm _ ns, @eq_comm _ name]

theorem declareByUse_eq_ok {path : String} (h : t.declareByUse ns name path = .ok t') :
    t' = t ∨ t' = ⟨t.declarations ++ [⟨ns, name, path, none⟩], t.frozen⟩ := by
  rw [declareByUse] at h
  split at h
  · cases h
  · split at h
    · cases h
      exact .inl rfl
    · cases h
      exact .inr rfl

theorem has_declareByUse {path : String} (h : t.declareByUse ns name path = .ok t')
    (hhas : t'.has other name' = true) : t.has other name' = true ∨ other = ns := by
  obtain rfl | rfl := declareByUse_eq_ok h
  · exact .inl hhas
  · rw [has_append, Bool.or_eq_true, Bool.and_eq_true, beq_iff_eq] at hhas
    exact hhas.imp_right fun ⟨hns, _⟩ => hns.symm

end AppSpec.SymbolTable
