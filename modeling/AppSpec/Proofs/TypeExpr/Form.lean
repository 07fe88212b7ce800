import AppSpec.Proofs.TypeExpr.Suffix

/-!
Printed forms, read back: names, and what stands in brackets.
-/

namespace AppSpec

open TypeText (NoNameHead)
open Literal (separated)

namespace TypeExpr

/-! ### Names -/

def FormEnds (rest : List Char) : Prop := ∀ c ∈ rest.head?, c = '\x7b' ∨ c = ',' ∨ c = ']'

theorem FormEnds.cases {rest : List Char} (h : FormEnds rest) :
    rest = [] ∨ ∃ c cs, rest = c :: cs ∧ (c = '\x7b' ∨ c = ',' ∨ c = ']') := by
  cases rest with
  | nil => exact .inl rfl
  | cons c cs => exact .inr ⟨c, cs, rfl, h c rfl⟩

theorem FormEnds.noNameHead {rest : List Char} (h : FormEnds rest) : NoNameHead rest := by
  intro c hc
  rcases h c hc with rfl | rfl | rfl <;> decide

theorem FormEnds.skipBlanks {rest : List Char} (h : FormEnds rest) :
    Text.skipBlanks rest = rest := by
  rcases h.cases with rfl | ⟨c, cs, rfl, rfl | rfl | rfl⟩
  · rfl
  · exact TypeText.skipBlanks_cons (by decide) cs
  · exact TypeText.skipBlanks_cons (by decide) cs
  · exact TypeText.skipBlanks_cons (by decide) cs

theorem formEnds_block {block : Constraints} {text rest : List Char}
    (h : withBlock [] block = .ok text) (hrest : Ends rest) : FormEnds (text ++ rest) := by
  rw [withBlock] at h
  split at h
  · cases h
    exact fun c hc => .inr (hrest c hc)
  · obtain ⟨texts, -, h⟩ := bind_eq_ok.mp h
    cases h
    rintro c ⟨⟩
    exact .inl rfl

theorem FormEnds.ne_bracket {rest : List Char} (h : FormEnds rest) (inner : List Char) :
    Text.skipBlanks rest ≠ '[' :: inner := by
  rw [h.skipBlanks]
  intro heq
  rcases h '[' (heq ▸ rfl) with h | h | h <;> cases h

theorem readForm_name (item : TypeReader TypeExpr) {name : String} (hname : IsIdentifier name)
    (hkeyword : keyword? name = none) {rest : List Char} (hrest : FormEnds rest)
    (issues : List TypeIssue) :
    readForm item ⟨name.toList ++ rest, issues⟩ =
      .ok (if isPrimitive name then .primitive name.toLower [] else .custom name [],
        ⟨rest, issues⟩) := by
  rw [readForm_plain (s := ⟨name.toList ++ rest, issues⟩) hname.ne_nil
    (hname.splitName_skipBlanks hrest.noNameHead) hrest.ne_bracket, String.ofList_toList, readAlone,
    hkeyword, hrest.skipBlanks]

theorem isIdentifier_label (composite : Composite) : IsIdentifier composite.label := by
  cases composite <;> decide

theorem keyword?_label (composite : Composite) : keyword? composite.label = some composite := by
  cases composite <;> decide +kernel

theorem bracketed_append (name : String) (inner rest : List Char) :
    bracketed name inner ++ rest = name.toList ++ '[' :: (inner ++ ']' :: rest) := by
  simp [bracketed]

theorem readForm_bracketed (item : TypeReader TypeExpr) (composite : Composite)
    (inner rest : List Char) (issues : List TypeIssue) :
    readForm item ⟨bracketed composite.label inner ++ rest, issues⟩ =
      readComposite item composite composite.label (bracketed composite.label inner ++ rest).length
        ⟨inner ++ ']' :: rest, issues⟩ := by
  have hname := isIdentifier_label composite
  have hbracket := noNameHead_cons (by decide : TypeText.isNameChar '[' = false)
    (inner ++ ']' :: rest)
  rw [bracketed_append]
  rw [readForm_brackets
    (s := ⟨composite.label.toList ++ '[' :: (inner ++ ']' :: rest), issues⟩) hname.ne_nil
    (hname.splitName_skipBlanks hbracket) (TypeText.skipBlanks_cons (by decide) _),
    String.ofList_toList, keyword?_label, TypeCursor.left, TypeCursor.rest_skipBlanks,
    hname.skipBlanks]

theorem readForm_space (item : TypeReader TypeExpr) (cs : List Char) (issues : List TypeIssue) :
    readForm item ⟨' ' :: cs, issues⟩ = readForm item ⟨cs, issues⟩ := by
  simp only [readForm, TypeCursor.skipBlanks, TypeText.skipBlanks_space]

theorem readType_space (limit : Int) (depth : Nat) (cs : List Char) (issues : List TypeIssue)
    (r : TypeExpr × TypeCursor) :
    readType limit depth ⟨' ' :: cs, issues⟩ = .ok r ↔
      readType limit depth ⟨cs, issues⟩ = .ok r := by
  cases depth with
  | zero => exact ⟨nofun, nofun⟩
  | succ depth => rw [readType, readType, readForm_space]

/-! ### Brackets -/

theorem expect_close (context : Expecting) (rest : List Char) (issues : List TypeIssue) :
    expect ']' context ⟨']' :: rest, issues⟩ = .ok ⟨rest, issues⟩ := rfl

section Arguments

variable {item : TypeReader TypeExpr} {s s' : TypeCursor}

theorem readArguments_last {t : TypeExpr} {rest : List Char} {issues : List TypeIssue} (steps : Nat)
    (h : item s = .ok (t, ⟨']' :: rest, issues⟩)) :
    readArguments item (steps + 1) s = .ok ([t], ⟨']' :: rest, issues⟩) := by
  rw [readArguments, h]
  rfl

theorem readArguments_comma {t : TypeExpr} {rest : List Char} {issues : List TypeIssue}
    (steps : Nat) (h : item s = .ok (t, ⟨',' :: rest, issues⟩)) :
    readArguments item (steps + 1) s =
      (readArguments item steps ⟨rest, issues⟩).map fun r => (t :: r.1, r.2) := by
  rw [readArguments, h]
  show (readArguments item steps ⟨rest, issues⟩ >>= _) = _
  cases readArguments item steps ⟨rest, issues⟩ <;> rfl

end Arguments

/-! ### Enumerations -/

theorem allAtoms_of_isEnumWord {cs : List Char} (h : Literal.isEnumWord cs = true) :
    TypeText.AllAtoms cs ∧ cs ≠ [] := by
  rw [Literal.isEnumWord, Bool.and_eq_true, List.all_eq_true] at h
  exact ⟨fun c hc => TypeText.isAtom_of_isWordChar (h.2 c hc), by simpa using h.1⟩

theorem isEnumStop_of_isAtom {c : Char} (h : TypeText.isAtom c = true) : isEnumStop c = false := by
  rw [isEnumStop, Bool.or_eq_false_iff, beq_eq_false_iff_ne, beq_eq_false_iff_ne]
  exact ⟨TypeText.ne_of_isAtom h (by decide), TypeText.ne_of_isAtom h (by decide)⟩

theorem readEnumValue_bare {word rest : List Char} (tail : List Char)
    (hword : Literal.isEnumWord word = true) (htail : ∀ c ∈ tail, c = '\n')
    (hrest : TypeText.StopHead isEnumStop rest) (issues : List TypeIssue) :
    readEnumValue ⟨word ++ tail ++ rest, issues⟩ = .ok (word, rest) := by
  obtain ⟨hatoms, hne⟩ := allAtoms_of_isEnumWord hword
  obtain ⟨hsplit, htrim⟩ :=
    TypeText.splitBare_word (fun _ => isEnumStop_of_isAtom) (by decide) hatoms hne htail hrest
  have hempty : word.isEmpty = false := by simpa using hne
  cases word with
  | nil => exact absurd rfl hne
  | cons c word =>
      have hatom := hatoms c (by simp)
      have hne (d : Char) (hd : TypeText.isAtom d = false) : c ≠ d :=
        TypeText.ne_of_isAtom hatom hd
      unfold readEnumValue
      split
      · next heq => exact absurd (List.cons.inj heq).1 (hne _ (by decide))
      · next heq => exact absurd (List.cons.inj heq).1 (hne _ (by decide))
      · simp only [hsplit, htrim, hempty, hword, Bool.false_eq_true, if_false, Bool.not_true]

theorem readEnumValue_quote (cs rest : List Char) (issues : List TypeIssue) :
    readEnumValue ⟨Literal.quote cs ++ rest, issues⟩ = .ok (cs, rest) := by
  have hsplit := TypeText.splitQuoted_flatMap cs rest
  rw [Literal.quote, List.cons_append, List.append_assoc, List.singleton_append]
  simp only [readEnumValue, hsplit]

theorem readEnumValue_written (v : String) {rest : List Char}
    (hrest : TypeText.StopHead isEnumStop rest) (issues : List TypeIssue) :
    ∃ w, readEnumValue ⟨Literal.writeEnumValue v ++ rest, issues⟩ = .ok (w, rest) ∧
      (w = v.toList ↔ ¬ Literal.IsEnumLine v.toList) := by
  rw [Literal.writeEnumValue]
  split
  · next hword =>
      rcases Literal.upToLineEnd_cases v.toList with ⟨line, hv, hup⟩ | ⟨hup, hv⟩
      · rw [hup] at hword
        refine ⟨line, ?_, ?_⟩
        · rw [hv]
          exact readEnumValue_bare ['\n'] hword (by simp) hrest issues
        · rw [hv]
          exact iff_of_false (by simp) (fun h => h ⟨line, rfl, hword⟩)
      · rw [hup] at hword
        refine ⟨v.toList, ?_, iff_of_true rfl fun ⟨line, h, _⟩ => hv line h⟩
        have hread := readEnumValue_bare [] hword (by simp) hrest issues
        rwa [List.append_nil] at hread
  · next hword =>
      refine ⟨v.toList, readEnumValue_quote _ _ issues, iff_of_true rfl ?_⟩
      rintro ⟨line, hv, hline⟩
      rw [hv, Literal.upToLineEnd_lineFeed] at hword
      exact hword hline

theorem skipBlanks_enumValue (v : String) (rest : List Char) :
    Text.skipBlanks (Literal.writeEnumValue v ++ rest) = Literal.writeEnumValue v ++ rest := by
  rw [Literal.writeEnumValue]
  split
  · next hword =>
      obtain ⟨hatoms, hne⟩ := allAtoms_of_isEnumWord hword
      have hhead : ∃ c cs, v.toList = c :: cs ∧ TypeText.isAtom c = true := by
        rcases Literal.upToLineEnd_cases v.toList with ⟨line, hv, hup⟩ | ⟨hup, -⟩
        · rw [hup] at hatoms hne
          obtain ⟨c, cs, rfl⟩ := List.exists_cons_of_ne_nil hne
          exact ⟨c, _, hv, hatoms c (by simp)⟩
        · rw [hup] at hatoms hne
          obtain ⟨c, cs, hcs⟩ := List.exists_cons_of_ne_nil hne
          exact ⟨c, cs, hcs, hatoms c (by simp [hcs])⟩
      obtain ⟨c, cs, hcs, hc⟩ := hhead
      rw [hcs]
      exact TypeText.skipBlanks_cons (TypeText.isBlank_of_isAtom hc) _
  · exact TypeText.skipBlanks_cons (by decide) _

structure RereadsEnum (steps : Nat) (issues : List TypeIssue) (found values : List String)
    (text rest : List Char) : Prop where
  exact : (found ++ values).Nodup → (∀ v ∈ values, ¬ Literal.IsEnumLine v.toList) →
    readEnumValues steps found ⟨text ++ ']' :: rest, issues⟩ =
      .ok (found ++ values, ⟨']' :: rest, issues⟩)
  clean : ∀ values' s',
    readEnumValues steps found ⟨text ++ ']' :: rest, issues⟩ = .ok (values', s') →
      issues = s'.issues → s' = ⟨']' :: rest, issues⟩ ∧ ∃ read, values' = found ++ read ∧
        (read = values → ∀ v ∈ values, ¬ Literal.IsEnumLine v.toList)

theorem readEnumValues_space (steps : Nat) (found : List String) (cs : List Char)
    (issues : List TypeIssue) :
    readEnumValues (steps + 1) found ⟨' ' :: cs, issues⟩ =
      readEnumValues (steps + 1) found ⟨cs, issues⟩ := by
  simp only [readEnumValues, TypeCursor.skipBlanks, TypeText.skipBlanks_space]

section

variable {steps : Nat} {found : List String} {cs w rest : List Char} {issues : List TypeIssue}

theorem readEnumValues_last (hskip : Text.skipBlanks cs = cs)
    (hread : readEnumValue ⟨cs, issues⟩ = .ok (w, ']' :: rest))
    (hfresh : found.contains (String.ofList w) = false) :
    readEnumValues (steps + 1) found ⟨cs, issues⟩ =
      .ok (found ++ [String.ofList w], ⟨']' :: rest, issues⟩) := by
  have hbracket := TypeText.skipBlanks_cons (by decide : Text.isBlank ']' = false) rest
  rw [readEnumValues]
  simp only [TypeCursor.skipBlanks, hskip, hread, bind, Except.bind, hfresh, Bool.false_eq_true,
    if_false, hbracket]
  rfl

theorem readEnumValues_comma (hskip : Text.skipBlanks cs = cs)
    (hread : readEnumValue ⟨cs, issues⟩ = .ok (w, ',' :: rest))
    (hfresh : found.contains (String.ofList w) = false) :
    readEnumValues (steps + 1) found ⟨cs, issues⟩ =
      readEnumValues steps (found ++ [String.ofList w]) ⟨rest, issues⟩ := by
  have hcomma := TypeText.skipBlanks_cons (by decide : Text.isBlank ',' = false) rest
  rw [readEnumValues]
  simp only [TypeCursor.skipBlanks, hskip, hread, bind, Except.bind, hfresh, Bool.false_eq_true,
    if_false, hcomma]

theorem readEnumValues_dup {values : List String} {s' : TypeCursor} (hfound : found.Nodup)
    (hskip : Text.skipBlanks cs = cs) (hread : readEnumValue ⟨cs, issues⟩ = .ok (w, rest))
    (hdup : found.contains (String.ofList w) = true)
    (h : readEnumValues (steps + 1) found ⟨cs, issues⟩ = .ok (values, s')) :
    issues ≠ s'.issues := by
  intro hissues
  obtain ⟨_, _, found₁, issues₁, hvalue, htaken, hcases⟩ := readEnumValues_eq_ok.mp h
  rw [TypeCursor.skipBlanks, hskip] at hvalue htaken
  cases hread.symm.trans hvalue
  obtain ⟨-, rfl, rfl⟩ := htaken.resolve_right fun hnew => Bool.noConfusion (hdup.symm.trans hnew.1)
  have hprefix := issues_note ⟨cs, issues⟩ (.duplicateEnumValue (String.ofList w)) cs.length
  refine issues_ne_note ⟨cs, issues⟩ (.duplicateEnumValue (String.ofList w)) cs.length ?_
  rcases hcases with ⟨tail, -, hlater⟩ | ⟨-, -, rfl⟩
  · have hne : found₁ ≠ [] := by
      rintro rfl
      cases hdup
    obtain ⟨hkept, -⟩ := readEnumValues_keeps _ _ hfound (.inl hne) _ _ _ hlater
    exact (issues_eq hprefix hkept hissues).symm
  · exact hissues.symm

end

theorem stopHead_enum_comma (rest : List Char) : TypeText.StopHead isEnumStop (',' :: rest) :=
  ⟨_, _, rfl, by decide, by decide, by decide⟩

theorem stopHead_enum_bracket (rest : List Char) : TypeText.StopHead isEnumStop (']' :: rest) :=
  ⟨_, _, rfl, by decide, by decide, by decide⟩

section EnumValues

variable {steps : Nat} {issues : List TypeIssue} {found values : List String} {v : String}
  {rest : List Char} (hfound : found.Nodup)

theorem contains_eq_false_of_nodup (h : (found ++ v :: values).Nodup) :
    found.contains (String.ofList v.toList) = false := by
  rw [String.ofList_toList, List.contains_eq_mem, decide_eq_false_iff_not]
  intro hmem
  exact (List.nodup_append.mp h).2.2 v hmem v List.mem_cons_self rfl

include hfound

theorem RereadsEnum.last :
    RereadsEnum (steps + 1) issues found [v] (Literal.writeEnumValue v) rest := by
  obtain ⟨w, hread, hw⟩ := readEnumValue_written v (stopHead_enum_bracket rest) issues
  have hskip := skipBlanks_enumValue v (']' :: rest)
  constructor
  · intro hnodup hfaithful
    obtain rfl := hw.mpr (hfaithful v (List.mem_singleton_self v))
    refine (readEnumValues_last hskip hread (contains_eq_false_of_nodup hnodup)).trans ?_
    rw [String.ofList_toList]
  · intro values' s' h hissues
    cases hdup : found.contains (String.ofList w) with
    | true => exact absurd hissues (readEnumValues_dup hfound hskip hread hdup h)
    | false =>
        cases (readEnumValues_last hskip hread hdup).symm.trans h
        refine ⟨rfl, _, rfl, fun heq => ?_⟩
        rw [List.forall_mem_singleton, ← hw, ← List.singleton_inj.mp heq, String.toList_ofList]

theorem RereadsEnum.cons {text : List Char} {texts : List (List Char)}
    (hlater : ∀ w, found.contains w = false →
      RereadsEnum (steps + 1) issues (found ++ [w]) values (separated (text :: texts)) rest) :
    RereadsEnum (steps + 2) issues found (v :: values)
      (separated (Literal.writeEnumValue v :: text :: texts)) rest := by
  have htext := Literal.separated_cons (Literal.writeEnumValue v) text texts (']' :: rest)
  generalize hbehind : separated (text :: texts) ++ ']' :: rest = behind at htext
  obtain ⟨w, hread, hw⟩ := readEnumValue_written v (stopHead_enum_comma (' ' :: behind)) issues
  have hskip := skipBlanks_enumValue v (',' :: ' ' :: behind)
  constructor
  · intro hnodup hfaithful
    obtain ⟨hfirst, hothers⟩ := List.forall_mem_cons.mp hfaithful
    obtain rfl := hw.mpr hfirst
    have hfresh := contains_eq_false_of_nodup hnodup
    have hexact := (hlater _ hfresh).exact
    rw [String.ofList_toList, List.append_assoc, hbehind] at hexact
    rw [htext, readEnumValues_comma hskip hread hfresh, readEnumValues_space, String.ofList_toList]
    exact hexact hnodup hothers
  · intro values' s' h hissues
    rw [htext] at h
    cases hdup : found.contains (String.ofList w) with
    | true => exact absurd hissues (readEnumValues_dup hfound hskip hread hdup h)
    | false =>
        rw [readEnumValues_comma hskip hread hdup, readEnumValues_space] at h
        rw [← hbehind] at h
        obtain ⟨hs', read, rfl, hfaithful⟩ := (hlater _ hdup).clean _ _ h hissues
        refine ⟨hs', String.ofList w :: read, by simp, fun heq => ?_⟩
        obtain ⟨hv, hread⟩ := List.cons.inj heq
        refine List.forall_mem_cons.mpr ⟨?_, hfaithful hread⟩
        rw [← hw, ← hv, String.toList_ofList]

end EnumValues

theorem rereadsEnum {values : List String} (steps : Nat) (issues : List TypeIssue)
    (found : List String) (rest : List Char) (hne : values ≠ []) (hfound : found.Nodup)
    (hsteps : values.length ≤ steps) :
    RereadsEnum steps issues found values (separated (values.map Literal.writeEnumValue)) rest := by
  induction values generalizing steps found with
  | nil => exact absurd rfl hne
  | cons v values ih =>
      cases values with
      | nil =>
          obtain ⟨steps, rfl⟩ : ∃ n, steps = n + 1 := ⟨steps - 1, by simp at hsteps; omega⟩
          exact .last hfound
      | cons second values =>
          obtain ⟨steps, rfl⟩ : ∃ n, steps = n + 2 := ⟨steps - 2, by simp at hsteps; omega⟩
          exact .cons hfound fun w hw => ih (steps + 1) (found ++ [w]) (List.cons_ne_nil _ _)
            (nodup_append_of_not_contains hfound hw) (by simpa using hsteps)

end TypeExpr

end AppSpec
