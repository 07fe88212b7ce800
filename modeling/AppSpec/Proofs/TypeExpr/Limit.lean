import AppSpec.Proofs.TypeExpr.Embedding

/-!
How far types, question marks and lists may nest bounds what is accepted, and nothing else: a text
that is read without an issue is read to the same type where they may nest deeper.
-/

namespace AppSpec

namespace TypeExpr

theorem readWhole_mono {limit limit' : Int} (hlimit : limit ≤ limit') {cs : List Char}
    {t : TypeExpr} (h : readWhole limit cs = .ok (t, [])) :
    readWhole limit' cs = .ok (t, []) := by
  have hcarries : Carries [] (readType limit (limit + 1).toNat)
      (readType limit' (limit' + 1).toNat) :=
    carries_readType ends_nil (Int.toNat_le_toNat hlimit)
      (Int.toNat_le_toNat (Int.add_le_add_right hlimit 1))
  unfold readWhole at h ⊢
  dsimp only at h ⊢
  split at h
  · cases h
  · next hne =>
      obtain ⟨⟨t', e⟩, hread, h⟩ := bind_eq_ok.mp h
      obtain ⟨issues, htrailing, h⟩ := bind_eq_ok.mp h
      cases h
      obtain ⟨-, hclean⟩ := readTrailing_clean htrailing
      have hdeeper := hcarries _ [] _ _ hread hclean trivial
      rw [List.append_nil, List.append_nil] at hdeeper
      rw [if_neg hne, hdeeper]
      rw [hclean] at htrailing
      exact bind_eq_ok.mpr ⟨_, rfl, bind_eq_ok.mpr ⟨_, htrailing, rfl⟩⟩

/-- A type that is accepted under a limit is accepted under every higher one, and is the same. -/
theorem parse_mono {limit limit' : Int} {text path : String} {t : TypeExpr}
    (hlimit : limit ≤ limit') (h : parse text path limit = .ok ⟨some t, []⟩) :
    parse text path limit' = .ok ⟨some t, []⟩ :=
  parse_clean.mpr (readWhole_mono hlimit (parse_clean.mp h))

/-- Brackets, question marks and the lists of a block, all up to the lower limit. -/
theorem parse_mono_tags :
    let text := "map[string, Tag?]\x7bin: [[1], [2]]\x7d?"
    ∃ t, parse text "" 2 = .ok ⟨some t, []⟩ ∧ (2 : Int) ≤ 64 ∧
      parse text "" 64 = .ok ⟨some t, []⟩ := by
  intro text
  have hread : parse text "" 2 =
      .ok ⟨some (.optional
        (.map (.primitive "string" []) (.optional (.custom "Tag" []) [])
          [("in", .list [.list [.scalar (.int 1)], .list [.scalar (.int 2)]])]) []), []⟩ := by
    cbv
  exact ⟨_, hread, by decide, parse_mono (by decide) hread⟩

-- with an issue the type may change: a list that nests too deep is left out
example : readWhole 1 "int\x7bin: [[1]]\x7d".toList =
      .ok (.primitive "int" [], [⟨.constraintFault "in" (.listTooDeep 1), 5⟩]) ∧
    readWhole 2 "int\x7bin: [[1]]\x7d".toList =
      .ok (.primitive "int" [("in", .list [.list [.scalar (.int 1)]])], []) := by
  constructor
  · cbv
  · cbv

end TypeExpr

end AppSpec
