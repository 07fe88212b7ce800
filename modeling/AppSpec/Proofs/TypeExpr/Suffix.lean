import AppSpec.Proofs.TypeExpr.Block

/-!
A printed type is its bare form and the block of its constraints; behind the form, the block comes
back as the constraints of the type.
-/

namespace AppSpec

open Literal (separated)

namespace TypeExpr

def bare (t : TypeExpr) : TypeExpr := t.withConstraints []

@[simp]
theorem bare_withConstraints (t : TypeExpr) : t.bare.withConstraints t.constraints = t := by
  cases t <;> rfl

theorem bare_of_constraints_nil {t : TypeExpr} (h : t.constraints = []) : t.bare = t := by
  rw [bare, ← h, withConstraints_constraints]

@[simp]
theorem constraints_bare (t : TypeExpr) : t.bare.constraints = [] :=
  constraints_withConstraints t []

theorem wellFormed_bare {limit : Int} {t : TypeExpr} (h : WellFormed limit t) :
    WellFormed limit t.bare := wellFormed_withConstraints h (blockWellFormed_nil limit)

theorem faithful_iff (t : TypeExpr) :
    t.Faithful ↔ t.bare.Faithful ∧ BlockFaithful t.constraints := by
  have hnil : BlockFaithful [] := fun _ h => nomatch h
  cases t <;> simp [bare, withConstraints, constraints, Faithful, hnil, and_assoc]

theorem height_bare (t : TypeExpr) : t.bare.height = t.height := by
  cases t <;> simp [bare, withConstraints, height]

theorem same_eq (t u : TypeExpr) :
    t.same u = (t.bare.same u.bare && sameConstraints t.constraints u.constraints) := by
  have hnil : sameConstraints [] [] = true := rfl
  cases t <;> cases u <;> simp [bare, withConstraints, constraints, same, hnil, Bool.and_assoc]

theorem withBlock_eq (text : List Char) (block : Constraints) :
    withBlock text block = (withBlock [] block).map (text ++ ·) := by
  unfold withBlock
  split
  · show Except.ok text = Except.ok (text ++ [])
    rw [List.append_nil]
  · cases writeConstraints block <;> rfl

theorem bind_withBlock {α : Type} (x : Except Failure α) (f : α → List Char) (block : Constraints) :
    (x >>= fun a => withBlock (f a) block) =
      (x >>= fun a => withBlock (f a) []) >>= fun form => withBlock form block := by
  cases x <;> rfl

theorem chars_eq (t : TypeExpr) :
    t.chars = t.bare.chars >>= fun form => withBlock form t.constraints := by
  cases t with
  | primitive name block => rfl
  | enum values block => rfl
  | array element block => exact bind_withBlock _ _ block
  | map key value block =>
      simp only [bare, withConstraints, constraints, chars]
      cases key.chars with
      | error failure => rfl
      | ok text => exact bind_withBlock value.chars _ block
  | optional inner block => exact bind_withBlock _ _ block
  | object fields block => exact bind_withBlock (fieldChars fields) _ block
  | reference target block => rfl
  | custom name block => rfl

theorem chars_ok {t : TypeExpr} {text : List Char} (h : t.chars = .ok text) :
    ∃ form block, t.bare.chars = .ok form ∧ withBlock [] t.constraints = .ok block ∧
      text = form ++ block := by
  rw [chars_eq] at h
  obtain ⟨form, hform, h⟩ := bind_eq_ok.mp h
  rw [withBlock_eq] at h
  obtain ⟨block, hblock, rfl⟩ := map_eq_ok.mp h
  exact ⟨form, block, hform, hblock, rfl⟩

/-! ### Suffixes -/

def Ends (rest : List Char) : Prop := ∀ c ∈ rest.head?, c = ',' ∨ c = ']'

theorem ends_nil : Ends [] := fun _ h => nomatch h

theorem ends_comma (rest : List Char) : Ends (',' :: rest) := by
  rintro c ⟨⟩
  exact .inl rfl

theorem ends_bracket (rest : List Char) : Ends (']' :: rest) := by
  rintro c ⟨⟩
  exact .inr rfl

theorem Ends.skipBlanks {rest : List Char} (h : Ends rest) : Text.skipBlanks rest = rest := by
  cases rest with
  | nil => rfl
  | cons c rest =>
      rcases h c rfl with rfl | rfl
      · exact TypeText.skipBlanks_cons (by decide) rest
      · exact TypeText.skipBlanks_cons (by decide) rest

theorem readSuffixes_ends (limit : Int) (steps depth : Nat) (t : TypeExpr) {rest : List Char}
    (h : Ends rest) (issues : List TypeIssue) :
    readSuffixes limit steps depth t ⟨rest, issues⟩ = .ok (t, ⟨rest, issues⟩) := by
  have hskip := h.skipBlanks
  rw [readSuffixes.eq_def]
  simp only [TypeCursor.skipBlanks, hskip]
  cases rest with
  | nil => rfl
  | cons c rest =>
      rcases h c rfl with rfl | rfl
      · rfl
      · rfl

theorem readSuffixes_block (limit : Int) (steps depth : Nat) (t : TypeExpr) (rest : List Char)
    (issues : List TypeIssue) :
    readSuffixes limit (steps + 1) depth t ⟨'\x7b' :: rest, issues⟩ =
      (readBlock limit (rest.length + 1) (rest.length + 1) ⟨rest, issues⟩ [] >>= fun r =>
        readSuffixes limit steps depth (t.withConstraints (t.constraints.setAll r.1)) r.2) := by
  rw [readSuffixes.eq_def]
  rfl

structure RereadsSuffix (limit : Int) (steps depth : Nat) (issues : List TypeIssue) (t : TypeExpr)
    (block : Constraints) (text rest : List Char) : Prop where
  exact : BlockFaithful block →
    readSuffixes limit steps depth t ⟨text ++ rest, issues⟩ =
      .ok (t.withConstraints block, ⟨rest, issues⟩)
  clean : ∀ t' s', readSuffixes limit steps depth t ⟨text ++ rest, issues⟩ = .ok (t', s') →
    issues = s'.issues → s' = ⟨rest, issues⟩ ∧ ∃ block', t' = t.withConstraints block' ∧
      (sameConstraints block block' = true → BlockFaithful block)

theorem sameConstraints_entry {block other : Constraints} (h : sameConstraints block other = true)
    {entry : String × Value} (hentry : entry ∈ block) {value : Value}
    (hvalue : Named.get? other entry.1 = some value) : entry.2.same value = true := by
  rw [sameConstraints, Bool.and_eq_true, List.all_eq_true] at h
  have := h.2 entry hentry
  rwa [hvalue] at this

theorem rereadsSuffix {limit : Int} (depth : Nat) (issues : List TypeIssue) {t : TypeExpr}
    {block : Constraints} {text rest : List Char} (ht : t.constraints = [])
    (hwell : WellFormed limit t) (hblock : BlockWellFormed limit block)
    (hw : withBlock [] block = .ok text) (hrest : Ends rest) :
    RereadsSuffix limit (text ++ rest).length depth issues t block text rest := by
  cases hempty : block.isEmpty with
  | true =>
      rw [List.isEmpty_iff] at hempty
      subst hempty
      cases hw
      have hread := readSuffixes_ends limit ([] ++ rest).length depth t hrest issues
      have hbare : t.withConstraints [] = t := bare_of_constraints_nil ht
      refine ⟨fun _ => by rw [hbare]; exact hread, fun t' s' h _ => ?_⟩
      cases hread.symm.trans h
      exact ⟨rfl, [], hbare.symm, fun _ _ h => nomatch h⟩
  | false =>
      rw [withBlock, hempty, if_neg (by simp)] at hw
      obtain ⟨texts, htexts, hw⟩ := bind_eq_ok.mp hw
      cases hw
      obtain ⟨hlength, hne⟩ := writeConstraints_length htexts
      have hle := Literal.length_le_separated hne
      have hread := rereadsBlock limit ((separated texts ++ '\x7d' :: rest).length + 1) issues
        ((separated texts ++ '\x7d' :: rest).length + 1) [] rest hblock htexts
        (blockWellFormed_nil limit) (fun _ _ => rfl) (by rw [List.length_append, ← hlength]; omega)
      have htext : [] ++ '\x7b' :: (separated texts ++ ['\x7d']) ++ rest =
          '\x7b' :: (separated texts ++ '\x7d' :: rest) := by simp
      have hopen := readSuffixes_block limit (separated texts ++ '\x7d' :: rest).length depth t
        (separated texts ++ '\x7d' :: rest) issues
      constructor
      · intro hfaithful
        rw [htext, List.length_cons, hopen, hread.exact hfaithful]
        show readSuffixes _ _ _ (t.withConstraints (t.constraints.setAll block)) _ = _
        rw [ht, Named.setAll_nil hblock.nodup, readSuffixes_ends _ _ _ _ hrest]
      · intro t' s' h hissues
        rw [htext, List.length_cons, hopen] at h
        obtain ⟨⟨found, s₁⟩, hfirst, h⟩ := bind_eq_ok.mp h
        obtain ⟨hissues₁, hfound⟩ := readBlock_keeps _ hfirst (blockWellFormed_nil limit)
        obtain ⟨hissues₂, -⟩ := readSuffixes_keeps _ h
          (wellFormed_withConstraints hwell (hwell.block.setAll hfound))
        obtain ⟨rfl, -, hentries⟩ := hread.clean _ _ hfirst (issues_eq hissues₁ hissues₂ hissues)
        dsimp only at h
        rw [ht, Named.setAll_nil hfound.nodup, readSuffixes_ends _ _ _ _ hrest] at h
        cases h
        refine ⟨rfl, found, rfl, fun hsame entry hentry => ?_⟩
        obtain ⟨value, hvalue, hfaithful⟩ := hentries entry hentry
        exact hfaithful (sameConstraints_entry hsame hentry hvalue)

end TypeExpr

end AppSpec
