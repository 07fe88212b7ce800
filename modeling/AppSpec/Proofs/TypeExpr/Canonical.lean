import AppSpec.Proofs.TypeExpr.RoundTrip

/-!
Whole texts: which types the canonical text gives back, and which ones a text can have read.
-/

namespace AppSpec

/-! ### Types are the same as themselves -/

theorem Scalar.same_self {s : Scalar} (hliteral : s.IsLiteral) (hfaithful : s.Faithful) :
    s.same s = true := by
  cases s with
  | null => rfl
  | bool b => cases b <;> rfl
  | int n => exact beq_self_eq_true n
  | float x => exact Decimal.IsFinite.beq_self hfaithful
  | str s => exact beq_self_eq_true s
  | date _ => exact hliteral.elim
  | timestamp _ => exact hliteral.elim
  | bytes _ => exact hliteral.elim

namespace Value

mutual

theorem same_self : ∀ levels (v : Value), v.IsLiteral levels → v.Faithful → v.same v = true
  | _, .scalar _, h, hf => Scalar.same_self h hf
  | _, .list items, h, hf => by
      obtain ⟨inner, -, h⟩ := h
      exact sameItems_self inner items h hf

theorem sameItems_self :
    ∀ levels items, AreLiterals levels items → AreFaithful items → sameItems items items = true
  | _, [], _, _ => rfl
  | levels, item :: items, h, hf => by
      rw [sameItems, same_self levels item h.1 hf.1, sameItems_self levels items h.2 hf.2]
      rfl

end

end Value

namespace TypeExpr

theorem sameConstraints_self {limit : Int} {block : Constraints}
    (hwell : BlockWellFormed limit block) (hfaithful : BlockFaithful block) :
    sameConstraints block block = true := by
  rw [sameConstraints, beq_self_eq_true, Bool.true_and, List.all_eq_true]
  intro entry hentry
  rw [Named.get?_of_mem hwell.nodup hentry]
  exact Value.same_self _ _ (hwell.literal entry hentry) (hfaithful entry hentry)

mutual

theorem same_self (limit : Int) : ∀ t, WellFormed limit t → t.Faithful → t.same t = true
  | .primitive name block, h, hf => by
      rw [same, sameConstraints_self h.2 hf, beq_self_eq_true]
      rfl
  | .enum values block, h, hf => by
      rw [same, sameConstraints_self h.2.2 hf.2, beq_self_eq_true]
      rfl
  | .array element block, h, hf => by
      rw [same, same_self limit element h.1 hf.1, sameConstraints_self h.2 hf.2]
      rfl
  | .map key value block, h, hf => by
      rw [same, same_self limit key h.1 hf.1, same_self limit value h.2.1 hf.2.1,
        sameConstraints_self h.2.2 hf.2.2]
      rfl
  | .optional inner block, h, hf => by
      rw [same, same_self limit inner h.1 hf.1, sameConstraints_self h.2 hf.2]
      rfl
  | .object fields block, h, hf => by
      have hfields := sameFields_self limit fields fields h.2.1 hf.1 fun field hfield =>
        Named.get?_of_mem h.1 hfield
      rw [same, hfields, beq_self_eq_true, sameConstraints_self h.2.2 hf.2]
      rfl
  | .reference target block, h, hf => by
      rw [same, sameConstraints_self h.2 hf, beq_self_eq_true]
      rfl
  | .custom name block, h, hf => by
      rw [same, sameConstraints_self h.2.2.2 hf, beq_self_eq_true]
      rfl

theorem sameFields_self (limit : Int) (all : List (String × TypeExpr)) :
    ∀ fields, FieldsWellFormed limit fields → FieldsFaithful fields →
      (∀ field ∈ fields, Named.get? all field.1 = some field.2) → sameFields fields all = true
  | [], _, _, _ => rfl
  | (name, t) :: fields, h, hf, hall => by
      obtain ⟨hfield, hfields⟩ := List.forall_mem_cons.mp hall
      rw [sameFields, hfield, sameFields_self limit all fields h.2.2 hf.2 hfields, Bool.and_true]
      exact same_self limit t h.2.1 hf.1

end

/-! ### Whole texts -/

theorem chars_head {limit : Int} {t : TypeExpr} {text : List Char} (hwell : WellFormed limit t)
    (hw : t.chars = .ok text) : ∃ name rest, IsIdentifier name ∧ text = name.toList ++ rest := by
  obtain ⟨form, block, hform, -, rfl⟩ := chars_ok hw
  suffices h : ∃ name rest, IsIdentifier name ∧ form = name.toList ++ rest by
    obtain ⟨name, rest, hname, rfl⟩ := h
    exact ⟨name, rest ++ block, hname, List.append_assoc _ _ _⟩
  cases t with
  | primitive name _ =>
      cases hform
      exact ⟨name, [], isIdentifier_primitive hwell.1, (List.append_nil _).symm⟩
  | custom name _ =>
      cases hform
      exact ⟨name, [], hwell.1, (List.append_nil _).symm⟩
  | enum values _ =>
      cases hform
      exact ⟨_, _, isIdentifier_label .enum, rfl⟩
  | reference target _ =>
      cases hform
      exact ⟨_, _, isIdentifier_label .reference, rfl⟩
  | array element _ =>
      obtain ⟨text, -, hform⟩ := bind_eq_ok.mp hform
      cases hform
      exact ⟨_, _, isIdentifier_label .array, rfl⟩
  | optional inner _ =>
      obtain ⟨text, -, hform⟩ := bind_eq_ok.mp hform
      cases hform
      exact ⟨_, _, isIdentifier_label .optional, rfl⟩
  | map key value _ =>
      obtain ⟨keyText, -, hform⟩ := bind_eq_ok.mp hform
      obtain ⟨valueText, -, hform⟩ := bind_eq_ok.mp hform
      cases hform
      exact ⟨_, _, isIdentifier_label .map, rfl⟩
  | object fields _ =>
      obtain ⟨texts, -, hform⟩ := bind_eq_ok.mp hform
      cases hform
      exact ⟨_, _, isIdentifier_label .object, rfl⟩

theorem readWhole_eq {limit : Int} {t : TypeExpr} {text : List Char} (hwell : WellFormed limit t)
    (hw : t.chars = .ok text) :
    readWhole limit text =
      (readType limit (limit + 1).toNat ⟨text, []⟩ >>= fun r =>
        readTrailing r.2.rest r.2.issues >>= fun issues => .ok (r.1, issues)) := by
  obtain ⟨name, rest, hname, rfl⟩ := chars_head hwell hw
  have hempty : (name.toList ++ rest).isEmpty = false := by
    rw [List.isEmpty_eq_false_iff]
    exact fun h => hname.ne_nil (List.append_eq_nil_iff.mp h).1
  rw [readWhole, hname.skipBlanks]
  simp only [hempty, Bool.false_eq_true, if_false]
  rfl

theorem readWhole_chars {limit : Int} {t : TypeExpr} {text : List Char} (hwell : WellFormed limit t)
    (hfaithful : t.Faithful) (hheight : (t.height : Int) ≤ limit) (hw : t.chars = .ok text) :
    readWhole limit text = .ok (t, []) := by
  have hread := (rereads limit t hwell (limit + 1).toNat [] text [] hw ends_nil).exact hfaithful
    (by omega)
  rw [List.append_nil] at hread
  rw [readWhole_eq hwell hw, hread]
  rfl

theorem text_eq_ok {t : TypeExpr} {text : String} :
    t.text = .ok text ↔ ∃ cs, t.chars = .ok cs ∧ text = String.ofList cs := by
  rw [TypeExpr.text, map_eq_ok]
  exact ⟨fun ⟨cs, h, heq⟩ => ⟨cs, h, heq.symm⟩, fun ⟨cs, h, heq⟩ => ⟨cs, h, heq.symm⟩⟩

theorem readTrailing_keeps {cs : List Char} {issues issues' : List TypeIssue}
    (h : readTrailing cs issues = .ok issues') : issues <+: issues' := by
  induction cs generalizing issues with
  | nil =>
      cases h
      exact List.prefix_refl _
  | cons c cs ih =>
      rw [readTrailing] at h
      split at h
      · exact ih h
      · split at h
        · exact (List.prefix_append _ _).trans (ih h)
        · cases h

theorem readWhole_ok {limit : Int} {cs : List Char} {t : TypeExpr}
    (h : readWhole limit cs = .ok (t, [])) :
    WellFormed limit t ∧ ∃ rest,
      readType limit (limit + 1).toNat ⟨Text.skipBlanks cs, []⟩ = .ok (t, ⟨rest, []⟩) := by
  rw [readWhole] at h
  split at h
  · cases h
  · obtain ⟨⟨t', rest, issues⟩, hread, h⟩ := bind_eq_ok.mp h
    obtain ⟨issues', htrailing, h⟩ := bind_eq_ok.mp h
    cases h
    obtain rfl := List.prefix_nil.mp (readTrailing_keeps htrailing)
    exact ⟨(readType_keeps _ _ _ _ _ hread).2, rest, hread⟩

theorem readWhole_clean {limit : Int} {t u : TypeExpr} {text : List Char}
    (hwell : WellFormed limit t) (hw : t.chars = .ok text)
    (h : readWhole limit text = .ok (u, [])) :
    (t.height : Int) ≤ limit ∧ (t.same u = true → t.Faithful) := by
  obtain ⟨-, rest, hread⟩ := readWhole_ok h
  obtain ⟨name, cs, hname, rfl⟩ := chars_head hwell hw
  rw [hname.skipBlanks, ← List.append_nil (name.toList ++ cs)] at hread
  obtain ⟨-, hheight, hsame⟩ :=
    (rereads limit t hwell _ [] _ [] hw ends_nil).clean _ _ hread rfl
  exact ⟨by omega, hsame⟩

theorem parse_clean {limit : Int} {text path : String} {t : TypeExpr} :
    parse text path limit = .ok ⟨some t, []⟩ ↔ readWhole limit text.toList = .ok (t, []) := by
  rw [parse]
  constructor
  · intro h
    split at h
    · next hread =>
        injection h with h
        injection h with ht hissues
        cases ht
        rw [List.map_eq_nil_iff.mp hissues] at hread
        exact hread
    · cases h
    · cases h
  · intro h
    rw [h]
    rfl

theorem parse_canonical_text (t : TypeExpr) (path : String) (hwell : t.WellFormed defaultLimit)
    (hfaithful : t.Faithful) (hheight : (t.height : Int) ≤ defaultLimit) :
    ∃ text, t.text = .ok text ∧ parse text path = .ok ⟨some t, []⟩ := by
  obtain ⟨cs, hcs⟩ := exists_chars defaultLimit t hwell hfaithful
  refine ⟨String.ofList cs, text_eq_ok.mpr ⟨cs, hcs, rfl⟩, parse_clean.mpr ?_⟩
  rw [String.toList_ofList]
  exact readWhole_chars hwell hfaithful hheight hcs

def purchase : TypeExpr :=
  .object
    [("owner", .reference "User" []),
      ("tags", .array (.primitive "string" [("pattern", .scalar (.str "a\"b"))]) []),
      ("states", .map (.primitive "uuid" []) (.optional (.enum ["open", "in use"] []) []) [])]
    [("rate", .scalar (.float (Float.ofBits 0x3fe0000000000000))),
      ("since", .list [.scalar (.int (-5)), .scalar (.str "1"), .scalar .null])]

theorem parse_canonical_text_purchase :
    ∃ text, purchase.text = .ok text ∧ parse text "" = .ok ⟨some purchase, []⟩ :=
  parse_canonical_text purchase "" (by decide +kernel) (by decide +kernel) (by decide)

structure Survives (t : TypeExpr) (path canonical : String) (again : TypeExpr) : Prop where
  written : t.text = .ok canonical
  read : parse canonical path = .ok ⟨some again, []⟩
  same : t.same again = true
  rewritten : again.text = .ok canonical

theorem survives_iff_faithful {text path : String} {t : TypeExpr}
    (h : parse text path = .ok ⟨some t, []⟩) (path' : String) :
    (∃ canonical again, t.Survives path' canonical again) ↔
      t.Faithful ∧ (t.height : Int) ≤ defaultLimit := by
  obtain ⟨hwell, -⟩ := readWhole_ok (parse_clean.mp h)
  constructor
  · rintro ⟨canonical, again, hwritten, hread, hsame, -⟩
    obtain ⟨cs, hcs, rfl⟩ := text_eq_ok.mp hwritten
    rw [parse_clean, String.toList_ofList] at hread
    obtain ⟨hheight, hfaithful⟩ := readWhole_clean hwell hcs hread
    exact ⟨hfaithful hsame, hheight⟩
  · rintro ⟨hfaithful, hheight⟩
    obtain ⟨cs, hcs⟩ := exists_chars defaultLimit t hwell hfaithful
    have hwritten := text_eq_ok.mpr ⟨cs, hcs, rfl⟩
    refine ⟨String.ofList cs, t, hwritten, parse_clean.mpr ?_,
      same_self defaultLimit t hwell hfaithful, hwritten⟩
    rw [String.toList_ofList]
    exact readWhole_chars hwell hfaithful hheight hcs

theorem survives_iff_faithful_enum_line :
    parse "enum[\"a\n\"]" "" = .ok ⟨some (.enum ["a\n"] []), []⟩ ∧
      ¬ ∃ canonical again, (enum ["a\n"] []).Survives "" canonical again := by
  have hread : parse "enum[\"a\n\"]" "" = .ok ⟨some (.enum ["a\n"] []), []⟩ := by cbv
  refine ⟨hread, fun h => ?_⟩
  have hfaithful := ((survives_iff_faithful hread "").mp h).1
  exact absurd hfaithful (by decide +kernel)

end TypeExpr

end AppSpec
