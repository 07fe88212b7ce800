import AppSpec.Proofs.Named
import AppSpec.Proofs.TypeExpr.LiteralText
import AppSpec.Proofs.TypeExpr.Reader

/-!
What the readers keep, whatever text they read: issues are only added, and a type that is read is
one that can be written.
-/

namespace AppSpec

namespace Text

theorem digitValue?_lt {c : Char} {n : Nat} (h : digitValue? c = some n) : n < 10 := by
  obtain ⟨z, hz, rfl⟩ := Option.map_eq_some_iff.mp h
  have := List.find?_some hz
  rw [Bool.and_eq_true, decide_eq_true_eq, decide_eq_true_eq] at this
  omega

theorem foldl_digits_lt (cs : List Char) (n : Nat) :
    cs.foldl (fun n c => n * 10 + (digitValue? c).getD 0) n < (n + 1) * 10 ^ cs.length := by
  induction cs generalizing n with
  | nil => simp
  | cons c cs ih =>
      have hc : (digitValue? c).getD 0 < 10 := by
        cases h : digitValue? c with
        | none => simp
        | some d => exact digitValue?_lt h
      calc (c :: cs).foldl (fun n c => n * 10 + (digitValue? c).getD 0) n
          < (n * 10 + (digitValue? c).getD 0 + 1) * 10 ^ cs.length := ih _
        _ ≤ ((n + 1) * 10) * 10 ^ cs.length := Nat.mul_le_mul_right _ (by omega)
        _ = (n + 1) * 10 ^ (c :: cs).length := by
          rw [List.length_cons, Nat.pow_succ]
          ring

theorem natOfDigits_lt (cs : List Char) : natOfDigits cs < 10 ^ cs.length := by
  simpa [natOfDigits] using foldl_digits_lt cs 0

end Text

namespace Literal

theorem read_isLiteral {cs : List Char} {s : Scalar} (h : read cs = .ok (some s)) :
    s.IsLiteral := by
  cases hk : keyword? cs with
  | some k =>
      simp only [read, hk, Except.ok.injEq, Option.some.injEq] at h
      subst h
      rw [keyword?_eq] at hk
      split at hk
      · cases hk
        trivial
      · split at hk
        · cases hk
          trivial
        · split at hk
          · cases hk
            trivial
          · cases hk
  | none =>
      cases hnum : (Numeral.integer? (upToLineEnd cs)).or (Numeral.real? (upToLineEnd cs)) with
      | none =>
          obtain ⟨hint, hreal⟩ := Option.or_eq_none_iff.mp hnum
          rw [read_text hk hint hreal] at h
          split at h
          · cases h
            trivial
          · cases h
      | some r =>
          rw [read_number hk hnum] at h
          cases r with
          | real negative digits exponent =>
              cases h
              trivial
          | integer negative digits =>
              rw [Numeral.scalar] at h
              split at h
              · cases h
              · next hshort =>
                  cases h
                  have habs : (Numeral.signed negative (Text.natOfDigits digits)).natAbs =
                      Text.natOfDigits digits := by
                    unfold Numeral.signed
                    split <;> omega
                  refine Text.integerTooLong_of_lt (Nat.le_of_not_lt hshort) ?_
                  rw [habs]
                  exact Text.natOfDigits_lt digits

end Literal

namespace TypeExpr

theorem readItems_areLiterals {item : LiteralReader} {levels : Nat}
    (hitem : ∀ cs v rest, item cs = .ok (some v, rest) → v.IsLiteral levels) (steps : Nat) :
    ∀ {cs rest : List Char} {items : List Value},
      readItems item steps cs = .ok (some items, rest) → Value.AreLiterals levels items := by
  induction steps with
  | zero =>
      intro cs rest items h
      cases h
  | succ steps ih =>
      intro cs rest items h
      obtain ⟨n, value, after, hn, hvalue, hcases⟩ := Literal.readItems_some h
      cases hn
      rcases hcases with ⟨-, rfl⟩ | ⟨_, values, -, hvalues, rfl⟩
      · exact ⟨hitem _ _ _ hvalue, trivial⟩
      · exact ⟨hitem _ _ _ hvalue, ih hvalues⟩

theorem readLiteralWith_isLiteral {list : LiteralReader} {levels : Nat} {cs rest : List Char}
    {v : Value} (hlist : ∀ cs v rest, list cs = .ok (some v, rest) → v.IsLiteral levels)
    (h : readLiteralWith list cs = .ok (some v, rest)) : v.IsLiteral levels := by
  have hquoted {r : Option (List Char) × List Char}
      (h : (Except.ok (r.1.map fun cs => Value.str (String.ofList cs), r.2) :
        Except TypeStop _) = .ok (some v, rest)) : v.IsLiteral levels := by
    obtain ⟨_, _, rfl⟩ := Option.map_eq_some_iff.mp (Prod.mk.inj (Except.ok.inj h)).1
    trivial
  unfold readLiteralWith at h
  split at h
  · exact hlist _ _ _ h
  · exact hquoted h
  · exact hquoted h
  · dsimp only at h
    split at h
    · next value hread =>
        cases value with
        | none => cases h
        | some s =>
            cases h
            exact Literal.read_isLiteral hread
    · cases h

theorem readLiteral_isLiteral (limit : Int) (levels : Nat) :
    ∀ cs v rest, readLiteral limit levels cs = .ok (some v, rest) → v.IsLiteral levels := by
  induction levels with
  | zero =>
      intro cs v rest h
      exact readLiteralWith_isLiteral (fun _ _ _ h => by cases h) h
  | succ levels ih =>
      intro cs v rest h
      refine readLiteralWith_isLiteral ?_ h
      intro cs v rest h
      unfold readList at h
      split at h
      · cases h
        exact ⟨levels, rfl, trivial⟩
      · obtain ⟨⟨values, last⟩, hitems, h⟩ := bind_eq_ok.mp h
        cases values with
        | none => cases h
        | some values =>
            cases h
            exact ⟨levels, rfl, readItems_areLiterals ih _ hitems⟩

/-! ### Names -/

theorem isIdentifier_of_splitName {cs name rest : List Char}
    (h : TypeText.splitName cs = (name, rest)) (hne : name ≠ []) :
    IsIdentifier (String.ofList name) := by
  cases cs with
  | nil =>
      cases h
      exact absurd rfl hne
  | cons c cs =>
      rw [TypeText.splitName] at h
      split at h
      · next hc =>
          cases h
          exact ⟨c, _, String.toList_ofList, hc, fun d hd => List.mem_takeWhile_imp hd⟩
      · cases h
        exact absurd rfl hne

/-! ### Blocks -/

theorem blockWellFormed_nil (limit : Int) : BlockWellFormed limit [] :=
  ⟨List.nodup_nil, by simp, by simp⟩

theorem BlockWellFormed.set {limit : Int} {block : Constraints} (h : BlockWellFormed limit block)
    {key : String} {value : Value} (hkey : IsIdentifier key) (hvalue : value.IsLiteral limit.toNat) :
    BlockWellFormed limit (block.set key value) := by
  refine ⟨Named.nodup_keys_set h.nodup key value, fun entry hentry => ?_, fun entry hentry => ?_⟩
  · rcases Named.mem_set hentry with rfl | hold
    · exact hkey
    · exact h.key entry hold
  · rcases Named.mem_set hentry with rfl | hold
    · exact hvalue
    · exact h.literal entry hold

theorem BlockWellFormed.setAll {limit : Int} {block more : Constraints}
    (h : BlockWellFormed limit block) (hmore : BlockWellFormed limit more) :
    BlockWellFormed limit (block.setAll more) := by
  have hkey := hmore.key
  have hliteral := hmore.literal
  clear hmore
  induction more generalizing block with
  | nil => exact h
  | cons entry more ih =>
      exact ih (h.set (hkey entry (by simp)) (hliteral entry (by simp)))
        (fun e he => hkey e (by simp [he])) (fun e he => hliteral e (by simp [he]))

theorem issues_note (s : TypeCursor) (kind : TypeIssueKind) (left : Nat) :
    s.issues <+: (s.note kind left).issues := List.prefix_append _ _

theorem issues_ne_note (s : TypeCursor) (kind : TypeIssueKind) (left : Nat) :
    (s.note kind left).issues ≠ s.issues := by
  simp [TypeCursor.note]

theorem readConstraint_keeps {limit : Int} {s s' : TypeCursor} {found found' : Constraints}
    (h : readConstraint limit s found = .ok (found', s')) (hfound : BlockWellFormed limit found) :
    s.issues <+: s'.issues ∧ BlockWellFormed limit found' := by
  unfold readConstraint at h
  dsimp only at h
  split at h
  · cases h
    exact ⟨issues_note _ _ _, hfound⟩
  · next name rest hname hsplit =>
      have hkey : IsIdentifier (String.ofList name) :=
        isIdentifier_of_splitName hsplit hname
      split at h
      · split at h
        · cases h
          exact ⟨issues_note _ _ _, hfound⟩
        · cases h
        · next value after hvalue =>
            cases h
            exact ⟨List.prefix_refl _, hfound.set hkey (readLiteral_isLiteral _ _ _ _ _ hvalue)⟩
        · cases h
          exact ⟨issues_note _ _ _, hfound⟩
      · cases h
        exact ⟨List.prefix_refl _, hfound.set hkey trivial⟩

theorem endConstraint_keeps (s : TypeCursor) : s.issues <+: (endConstraint s).issues := by
  unfold endConstraint
  dsimp only
  split
  · exact List.prefix_refl _
  · exact List.prefix_refl _
  · exact List.prefix_refl _
  · exact issues_note _ _ _

theorem readBlock_keeps {limit : Int} {openLeft : Nat} (steps : Nat) :
    ∀ {s s' : TypeCursor} {found found' : Constraints},
      readBlock limit openLeft steps s found = .ok (found', s') → BlockWellFormed limit found →
        s.issues <+: s'.issues ∧ BlockWellFormed limit found' := by
  induction steps using Nat.strongRecOn with
  | ind steps ih =>
      intro s s' found found' h hfound
      rcases readBlock_ok h with ⟨rest, -, rfl, rfl⟩ |
        ⟨n, c, cs, found₁, s₁, rfl, -, -, hentry, hlater⟩ | ⟨rfl, rfl⟩
      · exact ⟨List.prefix_refl _, hfound⟩
      · obtain ⟨hissues, hfound₁⟩ := readConstraint_keeps hentry hfound
        obtain ⟨hissues', hfound'⟩ := ih n (Nat.lt_succ_self n) hlater hfound₁
        exact ⟨(hissues.trans (endConstraint_keeps s₁)).trans hissues', hfound'⟩
      · exact ⟨issues_note _ _ _, hfound⟩

/-! ### Types -/

def Keeps {α : Type} (read : TypeReader α) (P : α → Prop) : Prop :=
  ∀ s x s', read s = .ok (x, s') → s.issues <+: s'.issues ∧ P x

theorem wellFormed_withConstraints {limit : Int} {t : TypeExpr} {block : Constraints}
    (h : WellFormed limit t) (hblock : BlockWellFormed limit block) :
    WellFormed limit (t.withConstraints block) := by
  cases t with
  | primitive name _ => exact ⟨h.1, hblock⟩
  | enum values _ => exact ⟨h.1, h.2.1, hblock⟩
  | array element _ => exact ⟨h.1, hblock⟩
  | map key value _ => exact ⟨h.1, h.2.1, hblock⟩
  | optional inner _ => exact ⟨h.1, hblock⟩
  | object fields _ => exact ⟨h.1, h.2.1, hblock⟩
  | reference target _ => exact ⟨h.1, hblock⟩
  | custom name _ => exact ⟨h.1, h.2.1, h.2.2.1, hblock⟩

theorem WellFormed.block {limit : Int} {t : TypeExpr} (h : WellFormed limit t) :
    BlockWellFormed limit t.constraints := by
  cases t with
  | primitive name _ => exact h.2
  | enum values _ => exact h.2.2
  | array element _ => exact h.2
  | map key value _ => exact h.2.2
  | optional inner _ => exact h.2
  | object fields _ => exact h.2.2
  | reference target _ => exact h.2
  | custom name _ => exact h.2.2.2

theorem readSuffixes_keeps {limit : Int} (steps : Nat) :
    ∀ {depth : Nat} {t t' : TypeExpr} {s s' : TypeCursor},
      readSuffixes limit steps depth t s = .ok (t', s') → WellFormed limit t →
        s.issues <+: s'.issues ∧ WellFormed limit t' := by
  induction steps using Nat.strongRecOn with
  | ind steps ih =>
      intro depth t t' s s' h ht
      rcases readSuffixes_ok h with ⟨n, d, rest, rfl, rfl, -, hlater⟩ |
        ⟨n, rest, block, s₁, rfl, -, hblock, hlater⟩ | ⟨rfl, rfl, -⟩
      · have hopt : WellFormed limit (.optional t []) := ⟨ht, blockWellFormed_nil limit⟩
        exact ih n (Nat.lt_succ_self n) (s := ⟨rest, s.issues⟩) hlater hopt
      · obtain ⟨hissues, hwell⟩ := readBlock_keeps _ hblock (blockWellFormed_nil limit)
        obtain ⟨hissues', ht'⟩ := ih n (Nat.lt_succ_self n) hlater
          (wellFormed_withConstraints ht (ht.block.setAll hwell))
        exact ⟨hissues.trans hissues', ht'⟩
      · exact ⟨List.prefix_refl _, ht⟩

theorem expect_keeps {c : Char} {context : Expecting} {s s' : TypeCursor}
    (h : expect c context s = .ok s') : s.issues = s'.issues := (expect_eq_ok.mp h).2.symm

section

variable {limit : Int} {item : TypeReader TypeExpr}

theorem readArguments_keeps (hitem : Keeps item (WellFormed limit)) (steps : Nat) :
    Keeps (readArguments item steps) (fun ts => ∀ t ∈ ts, WellFormed limit t) := by
  induction steps with
  | zero =>
      intro s ts s' h
      cases h
      exact ⟨List.prefix_refl _, by simp⟩
  | succ steps ih =>
      intro s ts s' h
      obtain ⟨t, s₁, ht, hcases⟩ := readArguments_eq_ok.mp h
      obtain ⟨hissues, hwell⟩ := hitem _ _ _ ht
      rcases hcases with ⟨rest, -, ts, hts, rfl⟩ | ⟨-, rfl, rfl⟩
      · obtain ⟨hissues', hwells⟩ := ih _ _ _ hts
        exact ⟨hissues.trans hissues', List.forall_mem_cons.mpr ⟨hwell, hwells⟩⟩
      · exact ⟨hissues, List.forall_mem_singleton.mpr hwell⟩

theorem fieldsWellFormed_append {fields : List (String × TypeExpr)} {name : String} {t : TypeExpr}
    (h : FieldsWellFormed limit fields) (hname : IsIdentifier name) (ht : WellFormed limit t) :
    FieldsWellFormed limit (fields ++ [(name, t)]) := by
  induction fields with
  | nil => exact ⟨hname, ht, trivial⟩
  | cons field fields ih => exact ⟨h.1, h.2.1, ih h.2.2⟩

def FieldsKept (limit : Int) (fields : List (String × TypeExpr)) : Prop :=
  (Named.keys fields).Nodup ∧ FieldsWellFormed limit fields

theorem FieldsKept.append {fields : List (String × TypeExpr)} {name : String} {t : TypeExpr}
    (h : FieldsKept limit fields) (hname : IsIdentifier name) (hnew : Named.has fields name = false)
    (ht : WellFormed limit t) : FieldsKept limit (fields ++ [(name, t)]) := by
  refine ⟨?_, fieldsWellFormed_append h.2 hname ht⟩
  rw [← Named.set_of_not_has t hnew]
  exact Named.nodup_keys_set h.1 name t

theorem readFields_keeps (hitem : Keeps item (WellFormed limit)) (steps : Nat) :
    ∀ found, FieldsKept limit found → Keeps (readFields item steps found) (FieldsKept limit) := by
  induction steps with
  | zero =>
      intro found hfound s fields s' h
      cases h
      exact ⟨List.prefix_refl _, hfound⟩
  | succ steps ih =>
      intro found hfound s fields s' h
      obtain ⟨name, rest, s₁, t, s₂, hname, hsplit, hcolon, ht, hhas, hcases⟩ :=
        readFields_eq_ok.mp h
      obtain ⟨hissues, hwell⟩ := hitem _ _ _ ht
      rw [← expect_keeps hcolon] at hissues
      have hfound' : FieldsKept limit (found ++ [(String.ofList name, t)]) :=
        hfound.append (isIdentifier_of_splitName hsplit hname) hhas hwell
      rcases hcases with ⟨tail, -, hlater⟩ | ⟨-, rfl, rfl⟩
      · obtain ⟨hissues', hfields⟩ := ih _ hfound' _ _ _ hlater
        exact ⟨hissues.trans hissues', hfields⟩
      · exact ⟨hissues, hfound'⟩

theorem nodup_append_of_not_contains {found : List String} {value : String} (h : found.Nodup)
    (hnew : found.contains value = false) : (found ++ [value]).Nodup := by
  rw [List.contains_eq_mem, decide_eq_false_iff_not] at hnew
  exact List.nodup_append.mpr ⟨h, List.nodup_singleton _, fun _ ha _ hb heq =>
    hnew (List.mem_singleton.mp hb ▸ heq ▸ ha)⟩

theorem EnumValueTaken.keeps {found found' : List String} {value : String} {s : TypeCursor}
    {issues : List TypeIssue} (h : EnumValueTaken found value s found' issues) (hfound : found.Nodup) :
    s.issues <+: issues ∧ found' ≠ [] ∧ found'.Nodup := by
  rcases h with ⟨hknown, rfl, rfl⟩ | ⟨hnew, rfl, rfl⟩
  · refine ⟨issues_note _ _ _, ?_, hfound⟩
    rintro rfl
    cases hknown
  · exact ⟨List.prefix_refl _, by simp, nodup_append_of_not_contains hfound hnew⟩

theorem readEnumValues_keeps (steps : Nat) :
    ∀ found : List String, found.Nodup → found ≠ [] ∨ 0 < steps →
      Keeps (readEnumValues steps found) (fun values => values ≠ [] ∧ values.Nodup) := by
  induction steps with
  | zero =>
      intro found hfound hne s values s' h
      cases h
      exact ⟨List.prefix_refl _, hne.resolve_right (by simp), hfound⟩
  | succ steps ih =>
      intro found hfound hne s values s' h
      obtain ⟨text, rest, found₁, issues₁, -, htaken, hcases⟩ := readEnumValues_eq_ok.mp h
      obtain ⟨hissues, hne₁, hfound₁⟩ := htaken.keeps hfound
      rcases hcases with ⟨tail, -, hlater⟩ | ⟨-, rfl, rfl⟩
      · obtain ⟨hissues', hkept⟩ := ih found₁ hfound₁ (.inl hne₁) _ _ _ hlater
        exact ⟨hissues.trans hissues', hkept⟩
      · exact ⟨hissues, hne₁, hfound₁⟩

theorem wellFormed_ofArguments {composite : Composite} {ts : List TypeExpr} {t : TypeExpr}
    (h : ofArguments composite ts = some t) (hts : ∀ t ∈ ts, WellFormed limit t) :
    WellFormed limit t := by
  have hblock := blockWellFormed_nil limit
  unfold ofArguments at h
  split at h
  · cases h
    exact ⟨hts _ (by simp), hts _ (by simp), hblock⟩
  · cases h
    exact ⟨hts _ (by simp), hblock⟩
  · cases h
    exact ⟨hts _ (by simp), hblock⟩
  · cases h

theorem Contents.keeps (hitem : Keeps item (WellFormed limit)) {composite : Composite}
    {t : TypeExpr} {s s' : TypeCursor} (h : Contents item s composite t s') :
    s.issues <+: s'.issues ∧ WellFormed limit t := by
  have hblock := blockWellFormed_nil limit
  cases h with
  | enum h =>
      obtain ⟨hissues, hne, hnodup⟩ :=
        readEnumValues_keeps _ [] List.nodup_nil (.inr (Nat.succ_pos _)) _ _ _ h
      exact ⟨hissues, hne, hnodup, hblock⟩
  | reference hne h =>
      exact ⟨List.prefix_refl _, isIdentifier_of_splitName h hne, hblock⟩
  | noFields h => exact ⟨List.prefix_refl _, List.nodup_nil, trivial, hblock⟩
  | fields _ h =>
      obtain ⟨hissues, hnodup, hwell⟩ :=
        readFields_keeps hitem _ [] ⟨List.nodup_nil, trivial⟩ _ _ _ h
      exact ⟨hissues, hnodup, hwell, hblock⟩
  | arguments h ht =>
      obtain ⟨hissues, hwell⟩ := readArguments_keeps hitem _ _ _ _ h
      exact ⟨hissues, wellFormed_ofArguments ht hwell⟩

theorem readComposite_keeps (hitem : Keeps item (WellFormed limit)) (composite : Composite)
    (name : String) (nameLeft : Nat) :
    Keeps (readComposite item composite name nameLeft) (WellFormed limit) := by
  intro s t s' h
  obtain ⟨s₁, hcontents, hclose⟩ := contents_of_readComposite h
  obtain ⟨hissues, hwell⟩ := hcontents.keeps hitem
  exact ⟨expect_keeps hclose ▸ hissues, hwell⟩

theorem isPrimitive_mem {name : String} (h : isPrimitive name = true) :
    name.toLower ∈ primitives := by
  simpa [isPrimitive] using h

theorem readForm_keeps (hitem : Keeps item (WellFormed limit)) :
    Keeps (readForm item) (WellFormed limit) := by
  intro s t s' h
  have hblock := blockWellFormed_nil limit
  obtain ⟨name, rest, hne, hsplit, hcases⟩ := readForm_ok h
  rcases hcases with ⟨inner, composite, -, -, hread⟩ | ⟨-, halone⟩
  · exact readComposite_keeps hitem composite _ _ ⟨inner, s.issues⟩ _ _ hread
  obtain ⟨rfl, ⟨-, rfl⟩ | ⟨hkeyword, rfl⟩⟩ := readAlone_ok halone
  · exact ⟨List.prefix_refl _, List.nodup_nil, trivial, hblock⟩
  · refine ⟨List.prefix_refl _, ?_⟩
    split
    · next hprimitive => exact ⟨isPrimitive_mem hprimitive, hblock⟩
    · next hprimitive =>
        exact ⟨isIdentifier_of_splitName hsplit hne, hkeyword, by simpa using hprimitive, hblock⟩

end

theorem readType_keeps (limit : Int) (depth : Nat) :
    Keeps (readType limit depth) (WellFormed limit) := by
  induction depth with
  | zero =>
      intro s t s' h
      cases h
  | succ depth ih =>
      intro s t s' h
      rw [readType] at h
      obtain ⟨⟨form, s₁⟩, hform, h⟩ := bind_eq_ok.mp h
      obtain ⟨hissues, hwell⟩ := readForm_keeps ih _ _ _ hform
      obtain ⟨hissues', hwell'⟩ := readSuffixes_keeps _ h hwell
      exact ⟨hissues.trans hissues', hwell'⟩

end TypeExpr

end AppSpec
