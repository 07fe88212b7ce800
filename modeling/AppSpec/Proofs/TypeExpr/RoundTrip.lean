import AppSpec.Proofs.TypeExpr.Form

/-!
Printed types, read back.
-/

namespace AppSpec

open Literal (separated)

namespace TypeExpr

structure RereadsType (limit : Int) (depth : Nat) (issues : List TypeIssue) (t : TypeExpr)
    (text rest : List Char) : Prop where
  exact : t.Faithful → t.height < depth →
    readType limit depth ⟨text ++ rest, issues⟩ = .ok (t, ⟨rest, issues⟩)
  clean : ∀ t' s', readType limit depth ⟨text ++ rest, issues⟩ = .ok (t', s') →
    issues = s'.issues →
      s' = ⟨rest, issues⟩ ∧ t.height < depth ∧ (t.same t' = true → t.Faithful)

def Rereads (limit : Int) (t : TypeExpr) : Prop :=
  ∀ depth issues text rest, t.chars = .ok text → Ends rest →
    RereadsType limit depth issues t text rest

structure RereadsForm (limit : Int) (depth : Nat) (issues : List TypeIssue) (t : TypeExpr)
    (text rest : List Char) : Prop where
  exact : t.Faithful → t.height ≤ depth →
    readForm (readType limit depth) ⟨text ++ rest, issues⟩ = .ok (t, ⟨rest, issues⟩)
  clean : ∀ t' s', readForm (readType limit depth) ⟨text ++ rest, issues⟩ = .ok (t', s') →
    issues = s'.issues →
      s' = ⟨rest, issues⟩ ∧ t.height ≤ depth ∧ t'.constraints = [] ∧
        (t.same t' = true → t.Faithful)

def RereadsForms (limit : Int) (t : TypeExpr) : Prop :=
  ∀ depth issues text rest, t.chars = .ok text → FormEnds rest →
    RereadsForm limit depth issues t text rest

theorem rereads_of_form {limit : Int} {t : TypeExpr} (hwell : WellFormed limit t)
    (hform : RereadsForms limit t.bare) : Rereads limit t := by
  intro depth issues text rest hw hrest
  obtain ⟨form, block, hformText, hblockText, rfl⟩ := chars_ok hw
  cases depth with
  | zero => exact ⟨fun _ h => by omega, fun _ _ h => by cases h⟩
  | succ depth =>
      have hform := hform depth issues form (block ++ rest) hformText
        (formEnds_block hblockText hrest)
      have hbareHeight := height_bare t
      have hsuffix {u : TypeExpr} (hu : u.constraints = []) (huwell : WellFormed limit u) :=
        rereadsSuffix depth issues hu huwell hwell.block hblockText hrest
      constructor
      · intro hfaithful hheight
        obtain ⟨hbare, hblock⟩ := (faithful_iff t).mp hfaithful
        rw [List.append_assoc, readType, hform.exact hbare (by omega)]
        refine ((hsuffix (constraints_bare t) (wellFormed_bare hwell)).exact hblock).trans ?_
        rw [bare_withConstraints]
      · intro t' s' h hissues
        rw [List.append_assoc, readType] at h
        obtain ⟨⟨u, s₁⟩, hfirst, h⟩ := bind_eq_ok.mp h
        obtain ⟨hissues₁, huwell⟩ := readForm_keeps (readType_keeps limit depth) _ _ _ hfirst
        obtain ⟨hissues₂, -⟩ := readSuffixes_keeps _ h huwell
        obtain ⟨rfl, hheight, hu, hsame⟩ :=
          hform.clean _ _ hfirst (issues_eq hissues₁ hissues₂ hissues)
        obtain ⟨rfl, block', rfl, hblock⟩ := (hsuffix hu huwell).clean _ _ h hissues
        refine ⟨rfl, by omega, fun h => ?_⟩
        rw [same_eq, constraints_withConstraints, Bool.and_eq_true] at h
        have hbare : (u.withConstraints block').bare = u := by
          rw [← bare_of_constraints_nil hu]
          cases u <;> rfl
        rw [hbare] at h
        exact (faithful_iff t).mpr ⟨hsame h.1, hblock h.2⟩

/-! ### Arguments -/

section Arguments

variable {limit : Int} {depth : Nat} {issues : List TypeIssue} {t : TypeExpr}
  {text rest : List Char}

/-- The first argument is read without an issue if all of them are. -/
theorem RereadsType.first_clean {after : List Char} (hread : RereadsType limit depth issues t text after)
    {steps : Nat} {t' : TypeExpr} {ts : List TypeExpr} {s₁ s' : TypeCursor}
    (ht' : readType limit depth ⟨text ++ after, issues⟩ = .ok (t', s₁))
    (hcases : (∃ rest, Text.skipBlanks s₁.rest = ',' :: rest ∧
        ∃ ts', readArguments (readType limit depth) steps ⟨rest, s₁.issues⟩ = .ok (ts', s') ∧
          ts = t' :: ts') ∨
      ((∀ rest, Text.skipBlanks s₁.rest ≠ ',' :: rest) ∧ ts = [t'] ∧ s' = s₁.skipBlanks))
    (hissues : issues = s'.issues) :
    s₁ = ⟨after, issues⟩ ∧ t.height < depth ∧ (t.same t' = true → t.Faithful) := by
  have hkeeps := readType_keeps limit depth
  obtain ⟨hissues₁, -⟩ := hkeeps _ _ _ ht'
  have hissues₂ : s₁.issues <+: s'.issues := by
    rcases hcases with ⟨_, -, _, hlater, -⟩ | ⟨-, -, rfl⟩
    · exact (readArguments_keeps hkeeps _ _ _ _ hlater).1
    · exact List.prefix_refl _
  exact hread.clean _ _ ht' (issues_eq hissues₁ hissues₂ hissues)

theorem readArguments_clean_last (steps : Nat)
    (hread : RereadsType limit depth issues t text (']' :: rest)) {ts : List TypeExpr}
    {s' : TypeCursor}
    (h : readArguments (readType limit depth) (steps + 1) ⟨text ++ ']' :: rest, issues⟩ =
      .ok (ts, s')) (hissues : issues = s'.issues) :
    s' = ⟨']' :: rest, issues⟩ ∧ t.height < depth ∧
      ∃ t', ts = [t'] ∧ (t.same t' = true → t.Faithful) := by
  obtain ⟨t', s₁, ht', hcases⟩ := readArguments_eq_ok.mp h
  obtain ⟨rfl, hheight, hsame⟩ := hread.first_clean ht' hcases hissues
  have hskip := TypeText.skipBlanks_cons (by decide : Text.isBlank ']' = false) rest
  rcases hcases with ⟨_, hcomma, -⟩ | ⟨-, rfl, rfl⟩
  · rw [hskip] at hcomma
    cases hcomma
  · exact ⟨by rw [TypeCursor.skipBlanks, hskip], hheight, t', rfl, hsame⟩

theorem readArguments_clean_comma (steps : Nat)
    (hread : RereadsType limit depth issues t text (',' :: rest)) {ts : List TypeExpr}
    {s' : TypeCursor}
    (h : readArguments (readType limit depth) (steps + 1) ⟨text ++ ',' :: rest, issues⟩ =
      .ok (ts, s')) (hissues : issues = s'.issues) :
    t.height < depth ∧ ∃ t' ts', ts = t' :: ts' ∧ (t.same t' = true → t.Faithful) ∧
      (ts' = [] ∨ readArguments (readType limit depth) steps ⟨rest, issues⟩ = .ok (ts', s')) := by
  obtain ⟨t', s₁, ht', hcases⟩ := readArguments_eq_ok.mp h
  obtain ⟨rfl, hheight, hsame⟩ := hread.first_clean ht' hcases hissues
  have hskip := TypeText.skipBlanks_cons (by decide : Text.isBlank ',' = false) rest
  rcases hcases with ⟨_, hcomma, ts', hlater, rfl⟩ | ⟨-, rfl, -⟩
  · rw [hskip] at hcomma
    cases hcomma
    exact ⟨hheight, t', ts', rfl, hsame, .inr hlater⟩
  · exact ⟨hheight, t', [], rfl, hsame, .inl rfl⟩

theorem readArguments_space (steps : Nat) {r : List TypeExpr × TypeCursor}
    (h : readArguments (readType limit depth) (steps + 1) ⟨' ' :: rest, issues⟩ = .ok r) :
    readArguments (readType limit depth) (steps + 1) ⟨rest, issues⟩ = .ok r := by
  rw [readArguments] at h ⊢
  obtain ⟨first, hfirst, h⟩ := bind_eq_ok.mp h
  exact bind_eq_ok.mpr ⟨first, (readType_space _ _ _ _ _).mp hfirst, h⟩

end Arguments

/-! ### Forms -/

section Forms

variable {limit : Int}

theorem rereadsForms_name {name : String} {u : TypeExpr} (hname : IsIdentifier name)
    (hkeyword : keyword? name = none) (hchars : u.chars = .ok name.toList)
    (hu : (if isPrimitive name then .primitive name.toLower [] else .custom name []) = u)
    (hheight : u.height = 0) (hconstraints : u.constraints = []) (hfaithful : u.Faithful) :
    RereadsForms limit u := by
  intro depth issues text rest hw hrest
  cases hchars.symm.trans hw
  have hread := readForm_name (readType limit depth) hname hkeyword hrest issues
  rw [hu] at hread
  refine ⟨fun _ _ => hread, fun t' s' h _ => ?_⟩
  cases hread.symm.trans h
  exact ⟨rfl, by omega, hconstraints, fun _ => hfaithful⟩

theorem isIdentifier_primitive {name : String} (h : name ∈ primitives) : IsIdentifier name := by
  have hall : ∀ name ∈ primitives, (name.toList.head?.any TypeText.isNameStart &&
      name.toList.tail.all TypeText.isNameChar) = true := by
    decide +kernel
  have := hall name h
  cases hname : name.toList with
  | nil =>
      rw [hname] at this
      cases this
  | cons c cs =>
      rw [hname, Bool.and_eq_true, List.all_eq_true] at this
      exact ⟨c, cs, hname, this.1, this.2⟩

theorem primitive_facts {name : String} (h : name ∈ primitives) :
    keyword? name = none ∧ isPrimitive name = true ∧ name.toLower = name := by
  have hall : ∀ name ∈ primitives,
      keyword? name = none ∧ isPrimitive name = true ∧ name.toLower = name := by
    decide +kernel
  exact hall name h

theorem rereadsForms_primitive {name : String} (h : name ∈ primitives) :
    RereadsForms limit (.primitive name []) := by
  obtain ⟨hkeyword, hprimitive, hlower⟩ := primitive_facts h
  refine rereadsForms_name (isIdentifier_primitive h) hkeyword rfl ?_ rfl rfl ?_
  · rw [if_pos hprimitive, hlower]
  · exact fun _ h => nomatch h

theorem rereadsForms_custom {name : String} (hname : IsIdentifier name)
    (hkeyword : keyword? name = none) (hprimitive : isPrimitive name = false) :
    RereadsForms limit (.custom name []) := by
  refine rereadsForms_name hname hkeyword rfl ?_ rfl rfl ?_
  · rw [if_neg (by simp [hprimitive])]
  · exact fun _ h => nomatch h

theorem blockFaithful_nil : BlockFaithful [] := fun _ h => nomatch h

/-- What stands in the brackets of a printed type, read back. -/
structure RereadsContents (limit : Int) (depth : Nat) (issues : List TypeIssue)
    (composite : Composite) (t : TypeExpr) (inner rest : List Char) : Prop where
  exact : t.Faithful → t.height ≤ depth →
    Contents (readType limit depth) ⟨inner ++ ']' :: rest, issues⟩ composite t
      ⟨']' :: rest, issues⟩
  clean : ∀ t' e,
    Contents (readType limit depth) ⟨inner ++ ']' :: rest, issues⟩ composite t' e →
      issues = e.issues → e = ⟨']' :: rest, issues⟩ ∧ t.height ≤ depth ∧ t'.constraints = [] ∧
        (t.same t' = true → t.Faithful)

theorem rereadsForms_contents (composite : Composite) {t : TypeExpr}
    (h : ∀ text, t.chars = .ok text → ∃ inner, text = bracketed composite.label inner ∧
      ∀ depth issues rest, RereadsContents limit depth issues composite t inner rest) :
    RereadsForms limit t := by
  intro depth issues text rest hw _
  obtain ⟨inner, rfl, hinside⟩ := h text hw
  have hread := readForm_bracketed (readType limit depth) composite inner rest issues
  constructor
  · intro hfaithful hheight
    have hcontents := (hinside depth issues rest).exact hfaithful hheight
    exact hread.trans (hcontents.readComposite (expect_close _ rest issues))
  · intro t' s' h hissues
    obtain ⟨e, hcontents, hclose⟩ := contents_of_readComposite (hread.symm.trans h)
    obtain ⟨rfl, hheight, hconstraints, hsame⟩ := (hinside depth issues rest).clean _ _ hcontents
      (hissues.trans (expect_keeps hclose).symm)
    cases (expect_close _ rest issues).symm.trans hclose
    exact ⟨rfl, hheight, hconstraints, hsame⟩

theorem rereadsForms_reference {target : String} (htarget : IsIdentifier target) :
    RereadsForms limit (.reference target []) := by
  refine rereadsForms_contents .reference fun text hw => ⟨target.toList, (Except.ok.inj hw).symm, ?_⟩
  intro depth issues rest
  have hsplit := htarget.splitName_skipBlanks
    (noNameHead_cons (by decide : TypeText.isNameChar ']' = false) rest)
  have hread : Contents (readType limit depth) ⟨target.toList ++ ']' :: rest, issues⟩ .reference
      (.reference (String.ofList target.toList) []) ⟨']' :: rest, issues⟩ :=
    .reference htarget.ne_nil hsplit
  rw [String.ofList_toList] at hread
  refine ⟨fun _ _ => hread, fun t' e h _ => ?_⟩
  cases h with
  | reference _ h =>
      cases hsplit.symm.trans h
      exact ⟨rfl, Nat.zero_le _, rfl, fun _ => blockFaithful_nil⟩
  | arguments _ ht => cases ht

theorem writeEnumValue_ne_nil (v : String) : Literal.writeEnumValue v ≠ [] := by
  rw [Literal.writeEnumValue]
  split
  · next hword =>
      rcases Literal.upToLineEnd_cases v.toList with ⟨line, hv, -⟩ | ⟨hup, -⟩
      · rw [hv]
        simp
      · rw [hup] at hword
        exact (allAtoms_of_isEnumWord hword).2
  · simp [Literal.quote]

theorem rereadsForms_enum {values : List String} (hne : values ≠ []) (hnodup : values.Nodup) :
    RereadsForms limit (.enum values []) := by
  refine rereadsForms_contents .enum fun text hw => ⟨_, (Except.ok.inj hw).symm, ?_⟩
  intro depth issues rest
  have hlength : values.length ≤
      (separated (values.map Literal.writeEnumValue) ++ ']' :: rest).length + 1 := by
    have hle : (values.map Literal.writeEnumValue).length ≤ _ :=
      Literal.length_le_separated (by simpa using fun v _ => writeEnumValue_ne_nil v)
    rw [List.length_map] at hle
    rw [List.length_append]
    omega
  have hvalues := rereadsEnum _ issues [] rest hne List.nodup_nil hlength
  refine ⟨fun hfaithful _ => .enum (hvalues.exact hnodup hfaithful.1), fun t' e h hissues => ?_⟩
  cases h with
  | enum h =>
      obtain ⟨rfl, read, rfl, hfaithful⟩ := hvalues.clean _ _ h hissues
      refine ⟨rfl, Nat.zero_le _, rfl, fun hsame => ⟨hfaithful ?_, blockFaithful_nil⟩⟩
      rw [same, Bool.and_eq_true, beq_iff_eq] at hsame
      exact hsame.1.symm
  | arguments _ ht => cases ht

/-! A form with one type in its brackets. -/

structure Wraps (composite : Composite) (wrap : TypeExpr → TypeExpr) : Prop where
  chars : ∀ t, (wrap t).chars = t.chars >>= fun text => .ok (bracketed composite.label text)
  read : ∀ item name nameLeft s, readComposite item composite name nameLeft s =
    (readArguments item (s.left + 1) s >>= fun r =>
      match r with
      | ([t], s) => expect ']' (.closing name nameLeft) s >>= fun s' => .ok (wrap t, s')
      | (ts, _) => .error (.fault ⟨.argumentCount name false ts.length, nameLeft⟩))
  constraints : ∀ t, (wrap t).constraints = []
  height : ∀ t, (wrap t).height = t.height + 1
  faithful : ∀ t, (wrap t).Faithful ↔ t.Faithful
  same : ∀ t u, (wrap t).same (wrap u) = t.same u

theorem wraps_array : Wraps .array (.array · []) where
  chars _ := rfl
  read _ _ _ _ := rfl
  constraints _ := rfl
  height _ := rfl
  faithful _ := and_iff_left blockFaithful_nil
  same _ _ := Bool.and_true _

theorem wraps_optional : Wraps .optional (.optional · []) where
  chars _ := rfl
  read _ _ _ _ := rfl
  constraints _ := rfl
  height _ := rfl
  faithful _ := and_iff_left blockFaithful_nil
  same _ _ := Bool.and_true _

theorem rereadsForms_wrap {composite : Composite} {wrap : TypeExpr → TypeExpr}
    (hwrap : Wraps composite wrap) {t : TypeExpr} (ht : Rereads limit t) :
    RereadsForms limit (wrap t) := by
  intro depth issues text rest hw _
  rw [hwrap.chars] at hw
  obtain ⟨inner, hinner, hw⟩ := bind_eq_ok.mp hw
  cases hw
  have hinside := ht depth issues inner (']' :: rest) hinner (ends_bracket rest)
  have hread := readForm_bracketed (readType limit depth) composite inner rest issues
  rw [hwrap.read, TypeCursor.left] at hread
  constructor
  · intro hfaithful hheight
    rw [hwrap.faithful] at hfaithful
    rw [hwrap.height] at hheight
    refine hread.trans ?_
    rw [readArguments_last _ (hinside.exact hfaithful (by omega))]
    rfl
  · intro t' s' h hissues
    replace h := hread.symm.trans h
    obtain ⟨⟨ts, s₁⟩, harguments, h⟩ := bind_eq_ok.mp h
    split at h
    · next u s₁ heq =>
        cases heq
        obtain ⟨s₂, hclose, h⟩ := bind_eq_ok.mp h
        cases h
        obtain ⟨rfl, hheight, u', hu, hsame⟩ := readArguments_clean_last _ hinside harguments
          (hissues.trans (expect_keeps hclose).symm)
        cases hu
        cases (expect_close _ rest issues).symm.trans hclose
        rw [hwrap.height, hwrap.same, hwrap.faithful]
        exact ⟨rfl, hheight, hwrap.constraints u, hsame⟩
    · cases h

theorem ofArguments_map {ts : List TypeExpr} {t : TypeExpr} (h : ofArguments .map ts = some t) :
    ∃ key value, ts = [key, value] ∧ t = .map key value [] := by
  rcases ts with _ | ⟨key, _ | ⟨value, _ | _⟩⟩
  all_goals cases h
  exact ⟨key, value, rfl, rfl⟩

theorem rereadsForms_map {key value : TypeExpr} (hkey : Rereads limit key)
    (hvalue : Rereads limit value) : RereadsForms limit (.map key value []) := by
  refine rereadsForms_contents .map fun text hw => ?_
  obtain ⟨keyText, hkeyText, hw⟩ := bind_eq_ok.mp hw
  obtain ⟨valueText, hvalueText, hw⟩ := bind_eq_ok.mp hw
  refine ⟨_, (Except.ok.inj hw).symm, fun depth issues rest => ?_⟩
  have hfirst := hkey depth issues keyText (',' :: ' ' :: (valueText ++ ']' :: rest)) hkeyText
    (ends_comma _)
  have hsecond := hvalue depth issues valueText (']' :: rest) hvalueText (ends_bracket rest)
  have htext : separated [keyText, valueText] ++ ']' :: rest =
      keyText ++ ',' :: ' ' :: (valueText ++ ']' :: rest) := Literal.separated_cons _ _ _ _
  obtain ⟨steps, hsteps⟩ : ∃ n, (keyText ++ ',' :: ' ' :: (valueText ++ ']' :: rest)).length = n + 1 :=
    ⟨keyText.length + 1 + (valueText ++ ']' :: rest).length, by
      simp only [List.length_append, List.length_cons]
      omega⟩
  constructor
  · intro hfaithful hheight
    have hheight : max key.height value.height + 1 ≤ depth := hheight
    have harguments : readArguments (readType limit depth)
        ((keyText ++ ',' :: ' ' :: (valueText ++ ']' :: rest)).length + 1)
        ⟨keyText ++ ',' :: ' ' :: (valueText ++ ']' :: rest), issues⟩ =
          .ok ([key, value], ⟨']' :: rest, issues⟩) := by
      rw [hsteps, readArguments_comma _ (hfirst.exact hfaithful.1 (by omega)),
        readArguments_last _ ((readType_space _ _ _ _ _).mpr
          (hsecond.exact hfaithful.2.1 (by omega)))]
      rfl
    rw [htext]
    exact .arguments harguments rfl
  · intro t' e h hissues
    cases h with
    | arguments harguments ht =>
        obtain ⟨key', value', rfl, rfl⟩ := ofArguments_map ht
        rw [htext, TypeCursor.left, hsteps] at harguments
        obtain ⟨hkeyHeight, k, vs, hts, hkeySame, hlater⟩ :=
          readArguments_clean_comma _ hfirst harguments hissues
        cases hts
        obtain ⟨rfl, hvalueHeight, v, hv, hvalueSame⟩ := readArguments_clean_last _ hsecond
          (readArguments_space _ (hlater.resolve_left (by simp))) hissues
        cases hv
        refine ⟨rfl, ?_, rfl, fun hsame => ?_⟩
        · show max key.height value.height + 1 ≤ depth
          omega
        · rw [same, Bool.and_eq_true, Bool.and_eq_true] at hsame
          exact ⟨hkeySame hsame.1.1, hvalueSame hsame.1.2, blockFaithful_nil⟩

/-! ### Objects -/

theorem fieldsFaithful_iff {fields : List (String × TypeExpr)} :
    FieldsFaithful fields ↔ ∀ field ∈ fields, field.2.Faithful := by
  induction fields with
  | nil => simp [FieldsFaithful]
  | cons field fields ih => simp [FieldsFaithful, ih]

theorem fieldsWellFormed_iff {fields : List (String × TypeExpr)} :
    FieldsWellFormed limit fields ↔
      ∀ field ∈ fields, IsIdentifier field.1 ∧ WellFormed limit field.2 := by
  induction fields with
  | nil => simp [FieldsWellFormed]
  | cons field fields ih => simp [FieldsWellFormed, ih, and_assoc]

theorem sameFields_entry {fields others : List (String × TypeExpr)}
    (h : sameFields fields others = true) {field : String × TypeExpr} (hfield : field ∈ fields)
    {t : TypeExpr} (ht : Named.get? others field.1 = some t) : field.2.same t = true := by
  induction fields with
  | nil => cases hfield
  | cons first fields ih =>
      rw [sameFields, Bool.and_eq_true] at h
      rcases List.mem_cons.mp hfield with rfl | hfield
      · have := h.1
        rwa [ht] at this
      · exact ih h.2 hfield

theorem fieldChars_cons {name : String} {t : TypeExpr} {fields : List (String × TypeExpr)}
    {texts : List (List Char)} (h : fieldChars ((name, t) :: fields) = .ok texts) :
    ∃ text rest, t.chars = .ok text ∧ fieldChars fields = .ok rest ∧
      texts = entryText name text :: rest := by
  rw [fieldChars] at h
  obtain ⟨text, htext, h⟩ := bind_eq_ok.mp h
  obtain ⟨rest, hrest, h⟩ := bind_eq_ok.mp h
  cases h
  exact ⟨text, rest, htext, hrest, rfl⟩

/-- The fields behind one that was read. -/
def fieldsAfter (item : TypeReader TypeExpr) (steps : Nat) (found : List (String × TypeExpr))
    (s : TypeCursor) : Except TypeStop (List (String × TypeExpr) × TypeCursor) :=
  match Text.skipBlanks s.rest with
  | ',' :: rest => readFields item steps found ⟨rest, s.issues⟩
  | _ => .ok (found, s.skipBlanks)

theorem readFields_field (item : TypeReader TypeExpr) (steps : Nat)
    (found : List (String × TypeExpr)) {name : String} (hname : IsIdentifier name)
    (rest : List Char) (issues : List TypeIssue) :
    readFields item (steps + 1) found ⟨name.toList ++ ':' :: rest, issues⟩ =
      (item ⟨rest, issues⟩ >>= fun r =>
        if Named.has found name then
          faultAt ⟨name.toList ++ ':' :: rest, issues⟩ (.duplicateField name)
        else fieldsAfter item steps (found ++ [(name, r.1)]) r.2) := by
  have hsplit := hname.splitName
    (noNameHead_cons (by decide : TypeText.isNameChar ':' = false) rest)
  rw [readFields]
  simp only [TypeCursor.skipBlanks, hname.skipBlanks, hsplit]
  split
  · next heq => exact absurd (Prod.mk.inj heq).1 hname.ne_nil
  · next heq =>
      cases heq
      rw [String.ofList_toList]
      rfl

/-- The text of a field is read as that of its type, and the other fields behind it. -/
theorem readFields_entry {depth steps : Nat} {found : List (String × TypeExpr)} {name : String}
    (hname : IsIdentifier name) (hnew : Named.has found name = false) {text after : List Char}
    {issues : List TypeIssue} {r : List (String × TypeExpr) × TypeCursor} :
    readFields (readType limit depth) (steps + 1) found ⟨entryText name text ++ after, issues⟩ =
        .ok r ↔
      ∃ t s, readType limit depth ⟨text ++ after, issues⟩ = .ok (t, s) ∧
        fieldsAfter (readType limit depth) steps (found ++ [(name, t)]) s = .ok r := by
  have htext : entryText name text ++ after = name.toList ++ ':' :: ' ' :: (text ++ after) := by
    rw [entryText, List.append_assoc]
    rfl
  rw [htext, readFields_field _ _ _ hname, bind_eq_ok]
  simp only [hnew, Bool.false_eq_true, if_false]
  constructor
  · rintro ⟨⟨t, s⟩, ht, h⟩
    exact ⟨t, s, (readType_space _ _ _ _ _).mp ht, h⟩
  · rintro ⟨t, s, ht, h⟩
    exact ⟨(t, s), (readType_space _ _ _ _ _).mpr ht, h⟩

structure RereadsFields (limit : Int) (depth steps : Nat) (issues : List TypeIssue)
    (found fields : List (String × TypeExpr)) (text rest : List Char) : Prop where
  exact : FieldsFaithful fields → fieldsHeight fields ≤ depth →
    readFields (readType limit depth) steps found ⟨text ++ ']' :: rest, issues⟩ =
      .ok (found ++ fields, ⟨']' :: rest, issues⟩)
  clean : ∀ fields' s',
    readFields (readType limit depth) steps found ⟨text ++ ']' :: rest, issues⟩ =
      .ok (fields', s') → issues = s'.issues →
        s' = ⟨']' :: rest, issues⟩ ∧ fieldsHeight fields ≤ depth ∧
          (∀ name, Named.has found name = true →
            Named.get? fields' name = Named.get? found name) ∧
          ∀ field ∈ fields, ∃ t, Named.get? fields' field.1 = some t ∧
            (field.2.same t = true → field.2.Faithful)

theorem readFields_space (item : TypeReader TypeExpr) (steps : Nat)
    (found : List (String × TypeExpr)) (cs : List Char) (issues : List TypeIssue) :
    readFields item (steps + 1) found ⟨' ' :: cs, issues⟩ =
      readFields item (steps + 1) found ⟨cs, issues⟩ := by
  simp only [readFields, TypeCursor.skipBlanks, TypeText.skipBlanks_space]

theorem separated_fields (item : TypeReader TypeExpr) (steps : Nat) (text : List Char)
    (texts : List (List Char)) (rest : List Char) (htexts : texts = [] ∨ 0 < steps) :
    ∃ after, separated (text :: texts) ++ ']' :: rest = text ++ after ∧ Ends after ∧
      ∀ found issues, fieldsAfter item steps found ⟨after, issues⟩ =
        if texts = [] then .ok (found, ⟨']' :: rest, issues⟩)
        else readFields item steps found ⟨separated texts ++ ']' :: rest, issues⟩ := by
  cases texts with
  | nil =>
      exact ⟨_, rfl, ends_bracket rest, fun _ _ => rfl⟩
  | cons second texts =>
      obtain ⟨steps, rfl⟩ : ∃ n, steps = n + 1 :=
        ⟨steps - 1, by have := htexts.resolve_left (by simp); omega⟩
      refine ⟨_, Literal.separated_cons _ _ _ _, ends_comma _, fun found issues => ?_⟩
      rw [if_neg (by simp), ← readFields_space]
      rfl

theorem fieldsAfter_mono {depth steps : Nat} {found fields : List (String × TypeExpr)}
    {s s' : TypeCursor} (hfound : FieldsKept limit found)
    (h : fieldsAfter (readType limit depth) steps found s = .ok (fields, s')) :
    s.issues <+: s'.issues := by
  unfold fieldsAfter at h
  split at h
  · exact (readFields_keeps (readType_keeps limit depth) steps found hfound _ _ _ h).1
  · cases h
    exact List.prefix_refl _

section Front

variable {depth steps : Nat} {issues : List TypeIssue} {found fields : List (String × TypeExpr)}
  {name : String} {t : TypeExpr} {text after rest : List Char}

/-- Where a field and all behind it are read without an issue, the field was read back. -/
theorem RereadsType.first_field (hread : RereadsType limit depth issues t text after)
    (hname : IsIdentifier name) (hnew : Named.has found name = false)
    (hfound : FieldsKept limit found) {s' : TypeCursor}
    (h : readFields (readType limit depth) (steps + 1) found
      ⟨entryText name text ++ after, issues⟩ = .ok (fields, s')) (hissues : issues = s'.issues) :
    ∃ u, FieldsKept limit (found ++ [(name, u)]) ∧ t.height < depth ∧
      (t.same u = true → t.Faithful) ∧
      fieldsAfter (readType limit depth) steps (found ++ [(name, u)]) ⟨after, issues⟩ =
        .ok (fields, s') := by
  obtain ⟨u, s₁, hu, hlater⟩ := (readFields_entry hname hnew).mp h
  obtain ⟨hissues₁, huwell⟩ := readType_keeps limit depth _ _ _ hu
  have hkept := hfound.append hname hnew huwell
  have hissues₂ := fieldsAfter_mono hkept hlater
  obtain ⟨rfl, hheight, hsame⟩ := hread.clean _ _ hu (issues_eq hissues₁ hissues₂ hissues)
  exact ⟨u, hkept, hheight, hsame, hlater⟩

variable (hname : IsIdentifier name) (hnew : Named.has found name = false)
  (hfound : FieldsKept limit found)

include hname hnew hfound

theorem RereadsFields.last (hread : RereadsType limit depth issues t text (']' :: rest)) :
    RereadsFields limit depth (steps + 1) issues found [(name, t)] (entryText name text) rest := by
  constructor
  · intro hfaithful hheight
    have hbelow := List.forall_mem_singleton.mp (fieldsHeight_le_iff.mp hheight)
    exact (readFields_entry hname hnew).mpr ⟨t, _, hread.exact hfaithful.1 hbelow, rfl⟩
  · intro fields' s' h hissues
    obtain ⟨u, -, hheight, hsame, hlater⟩ := hread.first_field hname hnew hfound h hissues
    cases hlater
    exact ⟨rfl, fieldsHeight_le_iff.mpr (List.forall_mem_singleton.mpr hheight),
      fun other hother => Named.get?_append_old hother _,
      List.forall_mem_singleton.mpr ⟨u, Named.get?_append_new hnew u, hsame⟩⟩

theorem RereadsFields.cons {second : List Char} {texts : List (List Char)}
    (hread : RereadsType limit depth issues t text
      (',' :: ' ' :: (separated (second :: texts) ++ ']' :: rest)))
    (hlater : ∀ u, FieldsKept limit (found ++ [(name, u)]) →
      RereadsFields limit depth (steps + 1) issues (found ++ [(name, u)]) fields
        (separated (second :: texts)) rest) :
    RereadsFields limit depth (steps + 2) issues found ((name, t) :: fields)
      (separated (entryText name text :: second :: texts)) rest := by
  have hafter (u : TypeExpr) : fieldsAfter (readType limit depth) (steps + 1) (found ++ [(name, u)])
      ⟨',' :: ' ' :: (separated (second :: texts) ++ ']' :: rest), issues⟩ =
        readFields (readType limit depth) (steps + 1) (found ++ [(name, u)])
          ⟨separated (second :: texts) ++ ']' :: rest, issues⟩ := readFields_space _ _ _ _ _
  constructor
  · intro hfaithful hheight
    obtain ⟨hbelow, hheights⟩ := List.forall_mem_cons.mp (fieldsHeight_le_iff.mp hheight)
    have ht := hread.exact hfaithful.1 hbelow
    have hkept := hfound.append hname hnew (readType_keeps limit depth _ _ _ ht).2
    rw [Literal.separated_cons]
    refine (readFields_entry hname hnew).mpr ⟨t, _, ht, ?_⟩
    rw [hafter, (hlater t hkept).exact hfaithful.2 (fieldsHeight_le_iff.mpr hheights),
      List.append_assoc]
    rfl
  · intro fields' s' h hissues
    rw [Literal.separated_cons] at h
    obtain ⟨u, hkept, hheight, hsame, h⟩ := hread.first_field hname hnew hfound h hissues
    rw [hafter] at h
    obtain ⟨hs', hheights, hframe, hentries⟩ := (hlater u hkept).clean _ _ h hissues
    have hkeep (other : String) (hother : Named.has found other = true ∨ name = other) :
        Named.get? fields' other = Named.get? (found ++ [(name, u)]) other := by
      refine hframe other ?_
      rwa [Named.has_append, Named.has_singleton, Bool.or_eq_true, decide_eq_true_eq]
    refine ⟨hs', fieldsHeight_le_iff.mpr (List.forall_mem_cons.mpr
      ⟨hheight, fieldsHeight_le_iff.mp hheights⟩), fun other hother => ?_,
      List.forall_mem_cons.mpr ⟨⟨u, ?_, hsame⟩, hentries⟩⟩
    · rw [hkeep other (.inl hother), Named.get?_append_old hother]
    · rw [hkeep name (.inr rfl), Named.get?_append_new hnew]

end Front

theorem rereadsFields (depth steps : Nat) (issues : List TypeIssue)
    {fields : List (String × TypeExpr)} {texts : List (List Char)}
    (found : List (String × TypeExpr)) (rest : List Char) (hne : fields ≠ [])
    (hnames : ∀ field ∈ fields, IsIdentifier field.1)
    (hnodup : (Named.keys fields).Nodup) (hfields : ∀ field ∈ fields, Rereads limit field.2)
    (hw : fieldChars fields = .ok texts) (hfound : FieldsKept limit found)
    (hfresh : ∀ name ∈ Named.keys fields, Named.has found name = false)
    (hsteps : fields.length ≤ steps) :
    RereadsFields limit depth steps issues found fields (separated texts) rest := by
  induction fields generalizing texts steps found with
  | nil => exact absurd rfl hne
  | cons field fields ih =>
      obtain ⟨name, t⟩ := field
      obtain ⟨text, texts, htext, htexts, rfl⟩ := fieldChars_cons hw
      obtain ⟨hname, hnames⟩ := List.forall_mem_cons.mp hnames
      obtain ⟨hread, hfields⟩ := List.forall_mem_cons.mp hfields
      obtain ⟨hnew, hfresh⟩ := List.forall_mem_cons.mp hfresh
      obtain ⟨hnotin, hnodup⟩ := List.nodup_cons.mp hnodup
      cases fields with
      | nil =>
          cases htexts
          obtain ⟨steps, rfl⟩ : ∃ n, steps = n + 1 := ⟨steps - 1, by simp at hsteps; omega⟩
          exact .last hname hnew hfound (hread depth issues text _ htext (ends_bracket rest))
      | cons next fields =>
          obtain ⟨steps, rfl⟩ : ∃ n, steps = n + 2 := ⟨steps - 2, by simp at hsteps; omega⟩
          have htexts' := htexts
          obtain ⟨second, texts, -, -, rfl⟩ := fieldChars_cons htexts'
          refine .cons hname hnew hfound (hread depth issues text _ htext (ends_comma _)) ?_
          refine fun u hkept => ih _ _ (List.cons_ne_nil _ _) hnames hnodup hfields htexts hkept
            (fun other hother => ?_) (by simpa using hsteps)
          have hne : name ≠ other := fun heq => hnotin (heq ▸ hother)
          simp [hfresh other hother, hne]

theorem fieldChars_length {fields : List (String × TypeExpr)} {texts : List (List Char)}
    (h : fieldChars fields = .ok texts) :
    texts.length = fields.length ∧ ∀ text ∈ texts, text ≠ [] := by
  induction fields generalizing texts with
  | nil =>
      cases h
      simp
  | cons field fields ih =>
      obtain ⟨text, texts, -, htexts, rfl⟩ := fieldChars_cons h
      obtain ⟨hlength, hne⟩ := ih htexts
      exact ⟨by rw [List.length_cons, hlength, List.length_cons],
        List.forall_mem_cons.mpr ⟨by simp [entryText], hne⟩⟩

/-- Where a name stands behind the bracket of an object, its fields are read. -/
theorem contents_named {item : TypeReader TypeExpr} {name : String} (hname : IsIdentifier name)
    {cs : List Char} {issues : List TypeIssue} {t : TypeExpr} {e : TypeCursor} :
    Contents item ⟨name.toList ++ cs, issues⟩ .object t e ↔
      ∃ fields, readFields item ((name.toList ++ cs).length + 1) [] ⟨name.toList ++ cs, issues⟩ =
        .ok (fields, e) ∧ t = .object fields [] := by
  have hskip := hname.skipBlanks cs
  have hcursor : TypeCursor.skipBlanks ⟨name.toList ++ cs, issues⟩ = ⟨name.toList ++ cs, issues⟩ := by
    rw [TypeCursor.skipBlanks, hskip]
  have hbracket (tail : List Char) : Text.skipBlanks (name.toList ++ cs) ≠ ']' :: tail := by
    obtain ⟨c, ds, hhead, hc, -⟩ := hname
    rw [hskip, hhead]
    exact fun heq => isStart_ne hc (by decide : TypeText.isNameStart ']' = false)
      (List.cons.inj heq).1
  constructor
  · intro h
    cases h with
    | noFields h => exact absurd h (hbracket _)
    | fields _ h =>
        rw [hcursor] at h
        exact ⟨_, h, rfl⟩
    | arguments _ ht => cases ht
  · rintro ⟨fields, h, rfl⟩
    refine .fields hbracket ?_
    rw [hcursor]
    exact h

theorem rereadsForms_noFields : RereadsForms limit (.object [] []) := by
  refine rereadsForms_contents .object fun text hw => ⟨[], (Except.ok.inj hw).symm, ?_⟩
  intro depth issues rest
  have hskip := TypeText.skipBlanks_cons (by decide : Text.isBlank ']' = false) rest
  refine ⟨fun _ _ => .noFields hskip, fun t' e h _ => ?_⟩
  cases h with
  | noFields _ =>
      exact ⟨rfl, Nat.zero_le _, rfl, fun _ => ⟨trivial, blockFaithful_nil⟩⟩
  | fields hne _ => exact absurd hskip (hne rest)
  | arguments _ ht => cases ht

theorem fieldChars_head {fields : List (String × TypeExpr)} {texts : List (List Char)}
    (h : fieldChars fields = .ok texts) (hne : fields ≠ [])
    (hnames : ∀ field ∈ fields, IsIdentifier field.1) (rest : List Char) :
    ∃ name : String, IsIdentifier name ∧ ∃ cs, separated texts ++ rest = name.toList ++ cs := by
  obtain ⟨⟨name, t⟩, fields, rfl⟩ := List.exists_cons_of_ne_nil hne
  refine ⟨name, hnames _ List.mem_cons_self, ?_⟩
  obtain ⟨text, texts, -, -, rfl⟩ := fieldChars_cons h
  cases texts with
  | nil => exact ⟨_, List.append_assoc _ _ _⟩
  | cons second texts => exact ⟨_, (Literal.separated_cons _ _ _ _).trans (List.append_assoc _ _ _)⟩

theorem rereadsForms_object {fields : List (String × TypeExpr)}
    (hwell : FieldsWellFormed limit fields) (hnodup : (Named.keys fields).Nodup)
    (hfields : ∀ field ∈ fields, Rereads limit field.2) :
    RereadsForms limit (.object fields []) := by
  by_cases hne : fields = []
  · subst hne
    exact rereadsForms_noFields
  refine rereadsForms_contents .object fun text hw => ?_
  obtain ⟨texts, htexts, hw⟩ := bind_eq_ok.mp hw
  refine ⟨_, (Except.ok.inj hw).symm, fun depth issues rest => ?_⟩
  have hnames := fun f hf => (fieldsWellFormed_iff.mp hwell f hf).1
  obtain ⟨hlength, hnonempty⟩ := fieldChars_length htexts
  have hle := Literal.length_le_separated hnonempty
  have hinside := rereadsFields depth ((separated texts ++ ']' :: rest).length + 1) issues [] rest
    hne hnames hnodup hfields htexts ⟨List.nodup_nil, trivial⟩ (fun _ _ => rfl)
    (by rw [List.length_append, ← hlength]; omega)
  obtain ⟨name, hname, cs, hcs⟩ := fieldChars_head htexts hne hnames (']' :: rest)
  constructor
  · intro hfaithful hheight
    have hread := hinside.exact hfaithful.1 hheight
    rw [hcs] at hread ⊢
    exact (contents_named hname).mpr ⟨_, hread, rfl⟩
  · intro t' e h hissues
    rw [hcs] at h
    obtain ⟨others, hothers, rfl⟩ := (contents_named hname).mp h
    rw [← hcs] at hothers
    obtain ⟨rfl, hheight, -, hentries⟩ := hinside.clean _ _ hothers hissues
    refine ⟨rfl, hheight, rfl, fun hsame => ⟨fieldsFaithful_iff.mpr ?_, blockFaithful_nil⟩⟩
    rw [same, Bool.and_eq_true, Bool.and_eq_true] at hsame
    intro f hf
    obtain ⟨u, hu, hfaithful⟩ := hentries f hf
    exact hfaithful (sameFields_entry hsame.1.2 hf hu)

end Forms

/-! ### All types -/

mutual

theorem rereads (limit : Int) : ∀ t, WellFormed limit t → Rereads limit t
  | .primitive _ _, h => rereads_of_form h (rereadsForms_primitive h.1)
  | .enum _ _, h => rereads_of_form h (rereadsForms_enum h.1 h.2.1)
  | .array element _, h =>
      rereads_of_form h (rereadsForms_wrap wraps_array (rereads limit element h.1))
  | .map key value _, h =>
      rereads_of_form h (rereadsForms_map (rereads limit key h.1) (rereads limit value h.2.1))
  | .optional inner _, h =>
      rereads_of_form h (rereadsForms_wrap wraps_optional (rereads limit inner h.1))
  | .object fields _, h =>
      rereads_of_form h (rereadsForms_object h.2.1 h.1 (fields_reread limit fields h.2.1))
  | .reference _ _, h => rereads_of_form h (rereadsForms_reference h.1)
  | .custom _ _, h => rereads_of_form h (rereadsForms_custom h.1 h.2.1 h.2.2.1)

theorem fields_reread (limit : Int) :
    ∀ fields, FieldsWellFormed limit fields → ∀ field ∈ fields, Rereads limit field.2
  | [], _ => fun _ h => nomatch h
  | (_, t) :: fields, h =>
      List.forall_mem_cons.mpr ⟨rereads limit t h.2.1, fields_reread limit fields h.2.2⟩

end

theorem exists_writeConstraints {limit : Int} {block : Constraints}
    (hwell : BlockWellFormed limit block) (hfaithful : BlockFaithful block) :
    ∃ texts, writeConstraints block = .ok texts := by
  obtain ⟨-, -, hliteral⟩ := hwell
  induction block with
  | nil => exact ⟨[], rfl⟩
  | cons entry block ih =>
      obtain ⟨text, htext⟩ := Literal.exists_write _ _ (hliteral entry List.mem_cons_self)
        (hfaithful entry List.mem_cons_self)
      obtain ⟨texts, htexts⟩ := ih (fun e he => hfaithful e (List.mem_cons_of_mem _ he))
        (fun e he => hliteral e (List.mem_cons_of_mem _ he))
      refine ⟨entryText entry.1 text :: texts, ?_⟩
      rw [writeConstraints, htext, htexts]
      rfl

theorem exists_withBlock {limit : Int} {block : Constraints} (text : List Char)
    (hwell : BlockWellFormed limit block) (hfaithful : BlockFaithful block) :
    ∃ whole, withBlock text block = .ok whole := by
  obtain ⟨texts, htexts⟩ := exists_writeConstraints hwell hfaithful
  rw [withBlock]
  split
  · exact ⟨_, rfl⟩
  · rw [htexts]
    exact ⟨_, rfl⟩

mutual

theorem exists_chars (limit : Int) :
    ∀ t, WellFormed limit t → t.Faithful → ∃ text, t.chars = .ok text
  | .primitive name block, h, hf => exists_withBlock _ h.2 hf
  | .enum values block, h, hf => exists_withBlock _ h.2.2 hf.2
  | .array element block, h, hf => by
      obtain ⟨text, htext⟩ := exists_chars limit element h.1 hf.1
      rw [chars, htext]
      exact exists_withBlock _ h.2 hf.2
  | .map key value block, h, hf => by
      obtain ⟨keyText, hkey⟩ := exists_chars limit key h.1 hf.1
      obtain ⟨valueText, hvalue⟩ := exists_chars limit value h.2.1 hf.2.1
      rw [chars, hkey, hvalue]
      exact exists_withBlock _ h.2.2 hf.2.2
  | .optional inner block, h, hf => by
      obtain ⟨text, htext⟩ := exists_chars limit inner h.1 hf.1
      rw [chars, htext]
      exact exists_withBlock _ h.2 hf.2
  | .object fields block, h, hf => by
      obtain ⟨texts, htexts⟩ := exists_fieldChars limit fields h.2.1 hf.1
      rw [chars, htexts]
      exact exists_withBlock _ h.2.2 hf.2
  | .reference target block, h, hf => exists_withBlock _ h.2 hf
  | .custom name block, h, hf => exists_withBlock _ h.2.2.2 hf

theorem exists_fieldChars (limit : Int) :
    ∀ fields, FieldsWellFormed limit fields → FieldsFaithful fields →
      ∃ texts, fieldChars fields = .ok texts
  | [], _, _ => ⟨[], rfl⟩
  | (name, t) :: fields, h, hf => by
      obtain ⟨text, htext⟩ := exists_chars limit t h.2.1 hf.1
      obtain ⟨texts, htexts⟩ := exists_fieldChars limit fields h.2.2 hf.2
      rw [fieldChars, htext, htexts]
      exact ⟨_, rfl⟩

end

end TypeExpr

end AppSpec
