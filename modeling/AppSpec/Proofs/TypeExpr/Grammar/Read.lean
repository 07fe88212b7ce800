import AppSpec.Proofs.TypeExpr.Form
import AppSpec.Proofs.TypeExpr.Grammar

/-!
Every text of the grammar is read as the type it stands for.
-/

namespace AppSpec.TypeGrammar

open Text (AllBlank)
open TypeExpr (IsIdentifier)

variable {α : Type}

/-- The value is read, and this is left but for blanks in front. -/
def ReadsTo (x : Except TypeStop (α × TypeCursor)) (a : α) (rest : List Char) : Prop :=
  ∃ s, x = .ok (a, s) ∧ Text.skipBlanks s.rest = Text.skipBlanks rest

/-- What may come next, blanks apart. -/
def Heads (heads rest : List Char) : Prop := ∀ c ∈ (Text.skipBlanks rest).head?, c ∈ heads

theorem Heads.mono {heads heads' rest : List Char} (h : Heads heads rest)
    (hheads : ∀ c ∈ heads, c ∈ heads') : Heads heads' rest := fun c hc => hheads c (h c hc)

theorem Heads.cases {heads rest : List Char} (h : Heads heads rest) :
    Text.skipBlanks rest = [] ∨ ∃ c ∈ heads, ∃ cs, Text.skipBlanks rest = c :: cs := by
  rw [Heads] at h
  cases hskip : Text.skipBlanks rest with
  | nil => exact .inl rfl
  | cons c cs =>
      rw [hskip] at h
      exact .inr ⟨c, h c rfl, cs, rfl⟩

theorem Heads.noNameHead {heads rest : List Char} (h : Heads heads rest)
    (hheads : ∀ c ∈ heads, TypeText.isNameChar c = false) : TypeText.NoNameHead rest := by
  cases rest with
  | nil => exact nofun
  | cons c rest =>
      refine TypeExpr.noNameHead_cons ?_ rest
      cases hblank : Text.isBlank c with
      | true =>
          by_contra hname
          rw [Bool.not_eq_false] at hname
          have hword := TypeText.isWordChar_of_isNameChar hname
          rw [TypeText.isBlank_of_isAtom (TypeText.isAtom_of_isWordChar hword)] at hblank
          cases hblank
      | false =>
          rw [Heads, TypeText.skipBlanks_cons hblank] at h
          exact hheads c (h c rfl)

theorem Token.heads {c : Char} {token text : List Char} (h : Token (c :: token) text)
    (hc : Text.isBlank c = false) (rest : List Char) : Heads [c] (text ++ rest) := by
  rw [Heads, h.skipBlanks hc rest]
  rintro d ⟨⟩
  exact List.mem_singleton_self c

/-! ### Names, question marks and brackets -/

section Form

variable {item : TypeReader TypeExpr} {name : String} {head rest : List Char}

theorem Token.splitName_name (hhead : Token name.toList head) (hname : IsIdentifier name)
    (hrest : TypeText.NoNameHead rest) :
    TypeText.splitName (Text.skipBlanks (head ++ rest)) = (name.toList, rest) := by
  rw [hhead.skipBlanks_name hname, hname.splitName hrest]

theorem readForm_bracket {bracket inner : List Char} {composite : Composite}
    (hname : IsIdentifier name) (hhead : Token name.toList head)
    (hkeyword : TypeExpr.keyword? name = some composite) (hbracket : Token ['['] bracket)
    (issues : List TypeIssue) :
    ∃ nameLeft, TypeExpr.readForm item ⟨head ++ (bracket ++ inner), issues⟩ =
      TypeExpr.readComposite item composite name nameLeft ⟨inner, issues⟩ := by
  have hheads := (hbracket.heads (by decide) inner).noNameHead
    (List.forall_mem_singleton.mpr (by decide))
  rw [TypeExpr.readForm_brackets (s := ⟨head ++ (bracket ++ inner), issues⟩) hname.ne_nil
    (hhead.splitName_name hname hheads) (hbracket.skipBlanks (by decide) inner),
    String.ofList_toList, hkeyword]
  exact ⟨_, rfl⟩

/-- What may follow a form. -/
def FormEnds (rest : List Char) : Prop := Heads ['?', '\x7b', ',', ']'] rest

theorem FormEnds.noNameHead (h : FormEnds rest) : TypeText.NoNameHead rest :=
  Heads.noNameHead h fun c hc => by
    simp only [List.mem_cons, List.not_mem_nil, or_false] at hc
    rcases hc with rfl | rfl | rfl | rfl <;> decide

theorem FormEnds.cases (h : FormEnds rest) :
    Text.skipBlanks rest = [] ∨
      ∃ c cs, Text.skipBlanks rest = c :: cs ∧ (c = '?' ∨ c = '\x7b' ∨ c = ',' ∨ c = ']') := by
  rcases Heads.cases h with hskip | ⟨c, hc, cs, hskip⟩
  · exact .inl hskip
  · exact .inr ⟨c, cs, hskip, by simpa using hc⟩

theorem FormEnds.ne_bracket (h : FormEnds rest) (inner : List Char) :
    Text.skipBlanks rest ≠ '[' :: inner := by
  rcases h.cases with hskip | ⟨c, cs, hskip, hc⟩
  · rw [hskip]
    exact nofun
  · rw [hskip]
    rintro heq
    obtain ⟨rfl, -⟩ := List.cons.inj heq
    revert hc
    decide

theorem readForm_alone (hname : IsIdentifier name) (hhead : Token name.toList head)
    (hrest : FormEnds rest) (issues : List TypeIssue) :
    TypeExpr.readForm item ⟨head ++ rest, issues⟩ =
      TypeExpr.readAlone name ⟨Text.skipBlanks rest, issues⟩ := by
  rw [TypeExpr.readForm_plain (s := ⟨head ++ rest, issues⟩) hname.ne_nil
    (hhead.splitName_name hname hrest.noNameHead) hrest.ne_bracket, String.ofList_toList]

theorem readForm_noKeyword (hname : IsIdentifier name) (hhead : Token name.toList head)
    (hkeyword : TypeExpr.keyword? name = none) (hrest : FormEnds rest) (issues : List TypeIssue) :
    TypeExpr.readForm item ⟨head ++ rest, issues⟩ =
      .ok (if TypeExpr.isPrimitive name then .primitive name.toLower [] else .custom name [],
        ⟨Text.skipBlanks rest, issues⟩) := by
  rw [readForm_alone hname hhead hrest, TypeExpr.readAlone, hkeyword]

theorem readForm_object (hname : IsIdentifier name) (hhead : Token name.toList head)
    (hkeyword : TypeExpr.keyword? name = some .object) (hrest : FormEnds rest)
    (issues : List TypeIssue) :
    TypeExpr.readForm item ⟨head ++ rest, issues⟩ =
      .ok (.object [] [], ⟨Text.skipBlanks rest, issues⟩) := by
  rw [readForm_alone hname hhead hrest, TypeExpr.readAlone, hkeyword]

end Form

theorem readSuffixes_skipBlanks (limit : Int) (steps depth : Nat) (t : TypeExpr)
    (issues : List TypeIssue) {cs ds : List Char} (h : Text.skipBlanks cs = Text.skipBlanks ds) :
    TypeExpr.readSuffixes limit steps depth t ⟨cs, issues⟩ =
      TypeExpr.readSuffixes limit steps depth t ⟨ds, issues⟩ := by
  rw [TypeExpr.readSuffixes.eq_def, TypeExpr.readSuffixes.eq_def limit steps depth t ⟨ds, issues⟩]
  simp only [TypeCursor.skipBlanks, h]

/-- What may follow a type. -/
def TypeEnds (rest : List Char) : Prop := Heads [',', ']'] rest

theorem readSuffixes_ends (limit : Int) (steps depth : Nat) (t : TypeExpr) {rest : List Char}
    (hrest : TypeEnds rest) (issues : List TypeIssue) :
    TypeExpr.readSuffixes limit steps depth t ⟨rest, issues⟩ =
      .ok (t, ⟨Text.skipBlanks rest, issues⟩) := by
  rw [TypeExpr.readSuffixes.eq_def]
  simp only [TypeCursor.skipBlanks]
  rcases Heads.cases hrest with hskip | ⟨c, hc, cs, hskip⟩
  · rw [hskip]
  · simp only [List.mem_cons, List.not_mem_nil, or_false] at hc
    rcases hc with rfl | rfl
    · rw [hskip]
      rfl
    · rw [hskip]
      rfl

theorem Marks.readSuffixes (limit : Int) {count : Nat} {marks : List Char}
    (h : Marks count marks) {rest : List Char} (hrest : TypeEnds rest) (issues : List TypeIssue) :
    ∀ (steps depth : Nat) (t : TypeExpr), count ≤ steps → count ≤ depth →
      TypeExpr.readSuffixes limit steps depth t ⟨marks ++ rest, issues⟩ =
        .ok (optionals count t, ⟨Text.skipBlanks rest, issues⟩) := by
  induction h with
  | none =>
      intro steps depth t _ _
      exact readSuffixes_ends limit steps depth t hrest issues
  | @more count mark marks hmark hmarks ih =>
      intro steps depth t hsteps hdepth
      obtain ⟨steps, rfl⟩ : ∃ n, steps = n + 1 := ⟨steps - 1, by omega⟩
      obtain ⟨depth, rfl⟩ : ∃ n, depth = n + 1 := ⟨depth - 1, by omega⟩
      have hskip : Text.skipBlanks (mark ++ marks ++ rest) = '?' :: (marks ++ rest) := by
        rw [List.append_assoc]
        exact hmark.skipBlanks (by decide) _
      rw [TypeExpr.readSuffixes.eq_def]
      simp only [TypeCursor.skipBlanks, hskip]
      exact ih steps depth _ (by omega) (by omega)

/-! ### Lists -/

section Separated

variable {Item : List Char → α → Prop} {text : List Char} {as : List α}

theorem Separated.length_le (h : Separated Item text as) : as.length ≤ text.length + 1 := by
  induction h with
  | last _ => exact Nat.le_add_left 1 _
  | next _ hcomma _ ih =>
      obtain ⟨blanks, -, rfl⟩ := hcomma
      simp only [List.length_append, List.length_cons, List.length_nil]
      omega

end Separated

/-- Nested types are read where a comma or a closing bracket follows. -/
def ReadsTypes (Nested : List Char → TypeExpr → Prop) (item : TypeReader TypeExpr) : Prop :=
  ∀ {text : List Char} {t : TypeExpr}, Nested text t → ∀ {rest : List Char}, TypeEnds rest →
    ∀ issues, ReadsTo (item ⟨text ++ rest, issues⟩) t rest

theorem typeEnds_comma {comma : List Char} (h : Token [','] comma) (rest : List Char) :
    TypeEnds (comma ++ rest) :=
  (h.heads (by decide) rest).mono (by simp)

theorem typeEnds_close {close : List Char} (h : Token [']'] close) (rest : List Char) :
    TypeEnds (close ++ rest) :=
  (h.heads (by decide) rest).mono (by simp)

theorem expect_of_skipBlanks {c : Char} (context : Expecting) {s : TypeCursor} {rest : List Char}
    (h : Text.skipBlanks s.rest = c :: rest) :
    TypeExpr.expect c context s = .ok ⟨rest, s.issues⟩ := TypeExpr.expect_eq_ok.mpr ⟨h, rfl⟩

section Brackets

variable {Nested : List Char → TypeExpr → Prop} {item : TypeReader TypeExpr}
variable {text close : List Char} (hitem : ReadsTypes Nested item) (hclose : Token [']'] close)

include hitem hclose

theorem readArguments_separated {ts : List TypeExpr} (h : Separated Nested text ts)
    (rest : List Char) (issues : List TypeIssue) (steps : Nat) (hsteps : ts.length ≤ steps) :
    ReadsTo (TypeExpr.readArguments item steps ⟨text ++ (close ++ rest), issues⟩) ts
      (close ++ rest) := by
  have hend : Text.skipBlanks (close ++ rest) = ']' :: rest := hclose.skipBlanks (by decide) rest
  induction h generalizing issues steps with
  | last h =>
      obtain ⟨steps, rfl⟩ : ∃ n, steps = n + 1 := ⟨steps - 1, by simp at hsteps; omega⟩
      obtain ⟨s, hs, hrest⟩ := hitem h (typeEnds_close hclose rest) issues
      refine ⟨s.skipBlanks, ?_, (Text.skipBlanks_skipBlanks _).trans hrest⟩
      rw [hend] at hrest
      exact TypeExpr.readArguments_eq_ok.mpr ⟨_, s, hs, .inr ⟨by simp [hrest], rfl, rfl⟩⟩
  | @next text comma more t ts h hcomma _ ih =>
      obtain ⟨steps, rfl⟩ : ∃ n, steps = n + 1 := ⟨steps - 1, by simp at hsteps; omega⟩
      rw [List.append_assoc, List.append_assoc]
      obtain ⟨s, hs, hrest⟩ := hitem h (typeEnds_comma hcomma _) issues
      rw [hcomma.skipBlanks (by decide)] at hrest
      obtain ⟨s', hs', hrest'⟩ := ih s.issues steps (by simpa using hsteps)
      exact ⟨s', TypeExpr.readArguments_eq_ok.mpr ⟨t, s, hs, .inl ⟨_, hrest, ts, hs', rfl⟩⟩, hrest'⟩

omit hitem hclose in
theorem not_has_of_nodup {found more : List (String × TypeExpr)} {field : String × TypeExpr}
    (h : (Named.keys (found ++ field :: more)).Nodup) : Named.has found field.1 = false := by
  rw [← Bool.not_eq_true, Named.has_iff_mem_keys]
  rw [Named.keys, List.map_append, List.nodup_append] at h
  exact fun hmem => h.2.2 _ hmem _ (by simp) rfl

omit hclose in
theorem readFields_field {name : String} {t : TypeExpr} {rest : List Char}
    (h : Field Nested text (name, t)) (hrest : TypeEnds rest) (issues : List TypeIssue)
    (steps : Nat) {found : List (String × TypeExpr)} (hnew : Named.has found name = false) :
    ∃ issues',
      (∀ more, Text.skipBlanks rest = ',' :: more →
        TypeExpr.readFields item (steps + 1) found ⟨text ++ rest, issues⟩ =
          TypeExpr.readFields item steps (found ++ [(name, t)]) ⟨more, issues'⟩) ∧
      ∀ more, Text.skipBlanks rest = ']' :: more →
        TypeExpr.readFields item (steps + 1) found ⟨text ++ rest, issues⟩ =
          .ok (found ++ [(name, t)], ⟨']' :: more, issues'⟩) := by
  obtain ⟨hname, hhead, hcolon, hbody⟩ := h
  rename_i head colon body
  have hheads := (hcolon.heads (by decide) (body ++ rest)).noNameHead
    (List.forall_mem_singleton.mpr (by decide))
  obtain ⟨s, hs, hsrest⟩ := hitem hbody hrest issues
  refine ⟨s.issues, ?_⟩
  have hskip : Text.skipBlanks (head ++ (colon ++ body) ++ rest) =
      name.toList ++ (colon ++ (body ++ rest)) := by
    rw [List.append_assoc, List.append_assoc]
    exact hhead.skipBlanks_name hname _
  rw [TypeExpr.readFields]
  simp only [TypeCursor.skipBlanks, hskip, hname.splitName hheads]
  split
  · next heq => exact absurd (Prod.mk.inj heq).1 hname.ne_nil
  · next heq =>
      cases heq
      rw [String.ofList_toList, expect_of_skipBlanks _ (hcolon.skipBlanks (by decide) (body ++ rest))]
      simp only [bind, Except.bind, List.nil_append, hs, hnew, Bool.false_eq_true, if_false, hsrest]
      exact ⟨fun more hmore => by rw [hmore]; rfl, fun more hmore => by rw [hmore]; rfl⟩

theorem readFields_separated {fields : List (String × TypeExpr)}
    (h : Separated (Field Nested) text fields) (rest : List Char) (issues : List TypeIssue)
    (steps : Nat) (hsteps : fields.length ≤ steps) (found : List (String × TypeExpr))
    (hdistinct : (Named.keys (found ++ fields)).Nodup) :
    ReadsTo (TypeExpr.readFields item steps found ⟨text ++ (close ++ rest), issues⟩)
      (found ++ fields) (close ++ rest) := by
  have hend : Text.skipBlanks (close ++ rest) = ']' :: rest := hclose.skipBlanks (by decide) rest
  induction h generalizing issues steps found with
  | @last text field h =>
      obtain ⟨steps, rfl⟩ : ∃ n, steps = n + 1 := ⟨steps - 1, by simp at hsteps; omega⟩
      have hnew : Named.has found field.1 = false := not_has_of_nodup hdistinct
      obtain ⟨issues', -, hlast⟩ :=
        readFields_field hitem h (typeEnds_close hclose rest) issues steps hnew
      exact ⟨_, hlast rest hend, by rw [hend, TypeText.skipBlanks_cons (by decide)]⟩
  | @next text comma more field fields h hcomma _ ih =>
      obtain ⟨steps, rfl⟩ : ∃ n, steps = n + 1 := ⟨steps - 1, by simp at hsteps; omega⟩
      have hnew : Named.has found field.1 = false := not_has_of_nodup hdistinct
      rw [List.append_assoc, List.append_assoc]
      obtain ⟨issues', hnext, -⟩ :=
        readFields_field hitem h (typeEnds_comma hcomma (more ++ (close ++ rest))) issues steps hnew
      have hlater := ih issues' steps (by simpa using hsteps) (found ++ [field])
        (by rwa [List.append_assoc])
      rw [List.append_assoc] at hlater
      obtain ⟨s, hs, hsrest⟩ := hlater
      exact ⟨s, (hnext _ (hcomma.skipBlanks (by decide) _)).trans hs, hsrest⟩

end Brackets

/-! ### Values of enumerations -/

/-- The values among these that are not found yet, each once. -/
def freshValues (found values : List String) : List String :=
  (values.filter fun value => !found.contains value).eraseDups

theorem freshValues_nil (values : List String) : freshValues [] values = values.eraseDups := by
  rw [freshValues, List.filter_eq_self.mpr]
  exact fun _ _ => rfl

theorem freshValues_none (found : List String) : freshValues found [] = [] := rfl

theorem freshValues_cons_of_found {found : List String} {value : String}
    (h : found.contains value = true) (values : List String) :
    freshValues found (value :: values) = freshValues found values := by
  rw [freshValues, List.filter_cons, h]
  rfl

theorem freshValues_cons_of_new {found : List String} {value : String}
    (h : found.contains value = false) (values : List String) :
    freshValues found (value :: values) = value :: freshValues (found ++ [value]) values := by
  rw [freshValues, List.filter_cons, h, Bool.not_false, if_pos rfl, List.eraseDups_cons,
    List.filter_filter, freshValues]
  congr 2
  refine List.filter_congr fun other _ => ?_
  rw [List.contains_append, Bool.not_or, Bool.and_comm, List.contains_cons,
    List.contains_nil, Bool.or_false]

theorem isEnumStop_of_isBlank {c : Char} (h : Text.isBlank c = true) :
    TypeExpr.isEnumStop c = false ∧ c ≠ '(' ∧ c ≠ '[' := by
  have hne (d : Char) (hd : Text.isBlank d = false) : c ≠ d := by
    rintro rfl
    rw [h] at hd
    cases hd
  refine ⟨?_, hne _ (by decide), hne _ (by decide)⟩
  rw [TypeExpr.isEnumStop, Bool.or_eq_false_iff, beq_eq_false_iff_ne, beq_eq_false_iff_ne]
  exact ⟨hne _ (by decide), hne _ (by decide)⟩

/-- What may follow a value of an enumeration. -/
structure ValueEnds (rest : List Char) : Prop where
  heads : Heads [',', ']'] rest
  nonempty : Text.skipBlanks rest ≠ []

theorem valueEnds_token {c : Char} {token : List Char} (h : Token [c] token)
    (hc : c = ',' ∨ c = ']') (rest : List Char) : ValueEnds (token ++ rest) := by
  have hblank : Text.isBlank c = false := by rcases hc with rfl | rfl <;> decide
  refine ⟨(h.heads hblank rest).mono ?_, by rw [h.skipBlanks hblank]; exact List.cons_ne_nil _ _⟩
  rintro d hd
  rw [List.mem_singleton.mp hd]
  simpa using hc

theorem ValueEnds.stopHead {rest : List Char} (h : ValueEnds rest) :
    TypeText.StopHead TypeExpr.isEnumStop (Text.skipBlanks rest) := by
  rcases h.heads.cases with hskip | ⟨c, hc, cs, hskip⟩
  · exact absurd hskip h.nonempty
  · simp only [List.mem_cons, List.not_mem_nil, or_false] at hc
    rw [hskip]
    rcases hc with rfl | rfl
    · exact TypeExpr.stopHead_enum_comma cs
    · exact TypeExpr.stopHead_enum_bracket cs

theorem readEnumValue_word {word rest : List Char} (hword : Literal.isEnumWord word = true)
    (hrest : ValueEnds rest) (issues : List TypeIssue) :
    TypeExpr.readEnumValue ⟨word ++ rest, issues⟩ = .ok (word, Text.skipBlanks rest) := by
  obtain ⟨hatoms, hne⟩ := TypeExpr.allAtoms_of_isEnumWord hword
  obtain ⟨blanks, hblanks, hsplit⟩ := Text.exists_skipBlanks rest
  have hraw : TypeText.splitBare TypeExpr.isEnumStop 0 (word ++ rest) =
      (word ++ blanks, Text.skipBlanks rest) := by
    rw [hsplit, ← List.append_assoc, hblanks.skipBlanks, Text.skipBlanks_skipBlanks]
    refine TypeText.splitBare_append_stop (fun c hc => ?_) hrest.stopHead
    rcases List.mem_append.mp hc with hc | hc
    · have hatom := hatoms c hc
      exact ⟨TypeText.ne_of_isAtom hatom (by decide), TypeText.ne_of_isAtom hatom (by decide),
        TypeExpr.isEnumStop_of_isAtom hatom⟩
    · obtain ⟨hstop, hparen, hbracket⟩ := isEnumStop_of_isBlank (hblanks c hc)
      exact ⟨hparen, hbracket, hstop⟩
  have htrim : Text.trim (word ++ blanks) = word := TypeText.trim_atoms hatoms hne hblanks
  obtain ⟨c, cs, rfl⟩ := List.exists_cons_of_ne_nil hne
  have hquote (d : Char) (hd : TypeText.isAtom d = false) : c ≠ d :=
    TypeText.ne_of_isAtom (hatoms c List.mem_cons_self) hd
  unfold TypeExpr.readEnumValue
  split
  · next heq => exact absurd (List.cons.inj heq).1 (hquote _ (by decide))
  · next heq => exact absurd (List.cons.inj heq).1 (hquote _ (by decide))
  · simp only [hraw, htrim, List.isEmpty_cons, hword, Bool.false_eq_true, if_false, Bool.not_true]

theorem Quoted.splitQuoted {quote : Char} (hquote : quote ≠ '\\') {body value : List Char}
    (h : Quoted quote body value) (rest : List Char) :
    TypeText.splitQuoted quote (body ++ quote :: rest) = (some value, rest) := by
  induction h with
  | nil =>
      rw [List.nil_append, TypeText.splitQuoted, if_pos rfl]
      rintro c rest' rfl
      exact absurd rfl hquote
  | escaped c _ ih =>
      rw [List.cons_append, List.cons_append, TypeText.splitQuoted, ih]
      rfl
  | plain hback hne _ ih =>
      rw [List.cons_append, TypeText.splitQuoted, if_neg hne, ih]
      · rfl
      · rintro c rest' rfl
        exact absurd rfl hback

theorem isQuote_cases {c : Char} (h : TypeText.isQuote c = true) : c = '\'' ∨ c = '"' := by
  rwa [TypeText.isQuote, Bool.or_eq_true, beq_iff_eq, beq_iff_eq] at h

theorem readEnumValue_quoted {quote : Char} (hquote : TypeText.isQuote quote = true)
    {body value : List Char} (h : Quoted quote body value) (rest : List Char)
    (issues : List TypeIssue) :
    TypeExpr.readEnumValue ⟨quote :: (body ++ quote :: rest), issues⟩ = .ok (value, rest) := by
  have hsplit := h.splitQuoted (by rcases isQuote_cases hquote with rfl | rfl <;> decide) rest
  rcases isQuote_cases hquote with rfl | rfl
  · simp only [TypeExpr.readEnumValue, hsplit]
  · simp only [TypeExpr.readEnumValue, hsplit]

theorem EnumValue.read {text : List Char} {value : String} (h : EnumValue text value)
    {rest : List Char} (hrest : ValueEnds rest) (issues : List TypeIssue) :
    ∃ cs rest', TypeExpr.readEnumValue ⟨Text.skipBlanks (text ++ rest), issues⟩ = .ok (cs, rest') ∧
      String.ofList cs = value ∧ Text.skipBlanks rest' = Text.skipBlanks rest := by
  cases h with
  | @word _ word htext hword =>
      obtain ⟨blanks, hblanks, rfl⟩ := htext
      have hskip : Text.skipBlanks (blanks ++ word ++ rest) = word ++ rest := by
        obtain ⟨hatoms, hne⟩ := TypeExpr.allAtoms_of_isEnumWord hword
        obtain ⟨c, cs, rfl⟩ := List.exists_cons_of_ne_nil hne
        rw [List.append_assoc, hblanks.skipBlanks]
        exact TypeText.skipBlanks_cons (TypeText.isBlank_of_isAtom (hatoms c List.mem_cons_self)) _
      rw [hskip]
      exact ⟨_, _, readEnumValue_word hword hrest issues, rfl, Text.skipBlanks_skipBlanks rest⟩
  | @quoted quote _ body value hquote hbody htext =>
      have hblank : Text.isBlank quote = false := by
        rcases isQuote_cases hquote with rfl | rfl <;> decide
      rw [htext.skipBlanks hblank, List.append_assoc, List.singleton_append]
      exact ⟨_, _, readEnumValue_quoted hquote hbody rest issues, rfl, rfl⟩

theorem readEnumValues_value {text : List Char} {value : String} (h : EnumValue text value)
    {rest : List Char} (hrest : ValueEnds rest) (issues : List TypeIssue) (steps : Nat)
    (found : List String) :
    ∃ issues',
      (∀ more, Text.skipBlanks rest = ',' :: more →
        TypeExpr.readEnumValues (steps + 1) found ⟨text ++ rest, issues⟩ =
          TypeExpr.readEnumValues steps (found ++ freshValues found [value]) ⟨more, issues'⟩) ∧
      ∀ more, Text.skipBlanks rest = ']' :: more →
        TypeExpr.readEnumValues (steps + 1) found ⟨text ++ rest, issues⟩ =
          .ok (found ++ freshValues found [value], ⟨']' :: more, issues'⟩) := by
  obtain ⟨cs, rest', hread, rfl, hskip⟩ := h.read hrest issues
  rw [TypeExpr.readEnumValues]
  simp only [TypeCursor.skipBlanks, hread, bind, Except.bind]
  cases hfound : found.contains (String.ofList cs) with
  | true =>
      simp only [if_true, hskip, freshValues_cons_of_found hfound, freshValues_none,
        List.append_nil]
      exact ⟨_, fun more hmore => by rw [hmore]; rfl, fun more hmore => by rw [hmore]; rfl⟩
  | false =>
      simp only [Bool.false_eq_true, if_false, hskip, freshValues_cons_of_new hfound,
        freshValues_none]
      exact ⟨_, fun more hmore => by rw [hmore]; rfl, fun more hmore => by rw [hmore]; rfl⟩

/-- The values that are found after one of them are found after its first. -/
theorem freshValues_cons (found : List String) (value : String) (values : List String) :
    found ++ freshValues found (value :: values) =
      found ++ freshValues found [value] ++
        freshValues (found ++ freshValues found [value]) values := by
  cases h : found.contains value with
  | true =>
      rw [freshValues_cons_of_found h, freshValues_cons_of_found h, freshValues_none,
        List.append_nil]
  | false =>
      rw [freshValues_cons_of_new h, freshValues_cons_of_new h, freshValues_none,
        List.append_assoc, List.singleton_append]

theorem readEnumValues_separated {text : List Char} {values : List String}
    (h : Separated EnumValue text values) {close : List Char} (hclose : Token [']'] close)
    (rest : List Char) (issues : List TypeIssue) (steps : Nat) (hsteps : values.length ≤ steps)
    (found : List String) :
    ReadsTo (TypeExpr.readEnumValues steps found ⟨text ++ (close ++ rest), issues⟩)
      (found ++ freshValues found values) (close ++ rest) := by
  have hend : Text.skipBlanks (close ++ rest) = ']' :: rest := hclose.skipBlanks (by decide) rest
  induction h generalizing issues steps found with
  | last h =>
      obtain ⟨steps, rfl⟩ : ∃ n, steps = n + 1 := ⟨steps - 1, by simp at hsteps; omega⟩
      obtain ⟨issues', -, hlast⟩ :=
        readEnumValues_value h (valueEnds_token hclose (.inr rfl) rest) issues steps found
      exact ⟨_, hlast rest hend, by rw [hend, TypeText.skipBlanks_cons (by decide)]⟩
  | @next text comma more value values h hcomma _ ih =>
      obtain ⟨steps, rfl⟩ : ∃ n, steps = n + 1 := ⟨steps - 1, by simp at hsteps; omega⟩
      rw [List.append_assoc, List.append_assoc]
      obtain ⟨issues', hnext, -⟩ := readEnumValues_value h
        (valueEnds_token hcomma (.inl rfl) (more ++ (close ++ rest))) issues steps found
      obtain ⟨s, hs, hsrest⟩ := ih issues' steps (by simpa using hsteps)
        (found ++ freshValues found [value])
      rw [freshValues_cons]
      exact ⟨s, (hnext _ (hcomma.skipBlanks (by decide) _)).trans hs, hsrest⟩

/-! ### Forms and types -/

section Fields

variable {Nested : List Char → TypeExpr → Prop} {text : List Char}

/-- A text that is left when the blanks in front are gone, and begins with a name. -/
structure Bare (text bare : List Char) : Prop where
  skipBlanks : ∀ rest, Text.skipBlanks (text ++ rest) = bare ++ rest
  head : ∃ c cs, bare = c :: cs ∧ TypeText.isNameStart c = true

theorem Bare.append {bare : List Char} (h : Bare text bare) (more : List Char) :
    Bare (text ++ more) (bare ++ more) := by
  obtain ⟨hskip, c, cs, rfl, hc⟩ := h
  refine ⟨fun rest => ?_, c, cs ++ more, rfl, hc⟩
  rw [List.append_assoc, hskip, List.append_assoc]

theorem Field.exists_bare {field : String × TypeExpr} (h : Field Nested text field) :
    ∃ bare, Field Nested bare field ∧ Bare text bare := by
  obtain ⟨hname, hhead, hcolon, hbody⟩ := h
  refine ⟨_, .mk hname ⟨[], Text.allBlank_nil, rfl⟩ hcolon hbody, Bare.append ⟨fun rest => ?_, ?_⟩ _⟩
  · rw [List.nil_append, hhead.skipBlanks_name hname]
  · obtain ⟨c, cs, hname, hc, -⟩ := hname
    exact ⟨c, cs, hname, hc⟩

theorem exists_bare {fields : List (String × TypeExpr)}
    (h : Separated (Field Nested) text fields) :
    ∃ bare, Separated (Field Nested) bare fields ∧ Bare text bare := by
  cases h with
  | last h =>
      obtain ⟨bare, hfield, hbare⟩ := h.exists_bare
      exact ⟨bare, .last hfield, hbare⟩
  | next h hcomma hrest =>
      obtain ⟨bare, hfield, hbare⟩ := h.exists_bare
      exact ⟨_, .next hfield hcomma hrest, hbare.append _⟩

end Fields

section Types

variable {Nested : List Char → TypeExpr → Prop} {item : TypeReader TypeExpr}

theorem Inner.read (hitem : ReadsTypes Nested item) {composite : Composite} {inner close : List Char}
    {t : TypeExpr} (h : Inner Nested composite inner t) (hclose : Token [']'] close)
    (rest : List Char) (issues : List TypeIssue) (name : String) (nameLeft : Nat) :
    ReadsTo (TypeExpr.readComposite item composite name nameLeft
      ⟨inner ++ (close ++ rest), issues⟩) t rest := by
  have hskip : Text.skipBlanks (close ++ rest) = ']' :: rest :=
    hclose.skipBlanks (by decide) rest
  have hsteps {β : Type} {Item : List Char → β → Prop} {as : List β} {inner : List Char}
      (h : Separated Item inner as) : as.length ≤ (inner ++ (close ++ rest)).length + 1 := by
    have := h.length_le
    rw [List.length_append]
    omega
  -- the contents are read up to the closing bracket, which is expected there
  suffices hcontents : ∃ s, TypeExpr.Contents item ⟨inner ++ (close ++ rest), issues⟩ composite t s ∧
      Text.skipBlanks s.rest = Text.skipBlanks (close ++ rest) by
    obtain ⟨s, hs, hrest⟩ := hcontents
    exact ⟨⟨rest, s.issues⟩, hs.readComposite (expect_of_skipBlanks _ (hrest.trans hskip)), rfl⟩
  cases h with
  | array h =>
      obtain ⟨s, hs, hrest⟩ := readArguments_separated hitem hclose (.last h) rest issues
        ((inner ++ (close ++ rest)).length + 1) (by simp)
      exact ⟨s, .arguments hs rfl, hrest⟩
  | optional h =>
      obtain ⟨s, hs, hrest⟩ := readArguments_separated hitem hclose (.last h) rest issues
        ((inner ++ (close ++ rest)).length + 1) (by simp)
      exact ⟨s, .arguments hs rfl, hrest⟩
  | map hkey hcomma hvalue =>
      have harguments := Separated.next hkey hcomma (.last hvalue)
      obtain ⟨s, hs, hrest⟩ := readArguments_separated hitem hclose harguments rest issues
        _ (hsteps harguments)
      exact ⟨s, .arguments hs rfl, hrest⟩
  | @reference _ target htarget h =>
      have hheads := (hclose.heads (by decide) rest).noNameHead
        (List.forall_mem_singleton.mpr (by decide))
      have hcontents : TypeExpr.Contents item ⟨inner ++ (close ++ rest), issues⟩ .reference _ _ :=
        .reference htarget.ne_nil (h.splitName_name htarget hheads)
      rw [String.ofList_toList] at hcontents
      exact ⟨_, hcontents, rfl⟩
  | noFields => exact ⟨_, .noFields hskip, Text.skipBlanks_skipBlanks _⟩
  | fields h hdistinct =>
      -- the blanks in front are gone before the fields are counted
      obtain ⟨bare, hfields, hbare, c, cs, rfl, hc⟩ := exists_bare h
      obtain ⟨s, hs, hrest⟩ := readFields_separated hitem hclose hfields rest issues
        _ (hsteps hfields) [] hdistinct
      have hne := TypeExpr.isStart_ne hc (by decide : TypeText.isNameStart ']' = false)
      have hcursor : TypeCursor.skipBlanks ⟨inner ++ (close ++ rest), issues⟩ =
          ⟨c :: cs ++ (close ++ rest), issues⟩ := by
        rw [TypeCursor.skipBlanks, hbare]
      refine ⟨s, .fields (fun more heq => ?_) (hcursor ▸ hs), hrest⟩
      rw [hbare] at heq
      exact hne (List.cons.inj heq).1
  | enum h =>
      obtain ⟨s, hs, hrest⟩ := readEnumValues_separated h hclose rest issues _ (hsteps h) []
      rw [List.nil_append, freshValues_nil] at hs
      exact ⟨s, .enum hs, hrest⟩

/-- After a form, the question marks behind it and what follows the type are as they were. -/
theorem Form.read (hitem : ReadsTypes Nested item) {text : List Char} {t : TypeExpr}
    (h : Form Nested text t) {rest : List Char} (hrest : FormEnds rest) (issues : List TypeIssue) :
    ReadsTo (TypeExpr.readForm item ⟨text ++ rest, issues⟩) t rest := by
  cases h with
  | primitive hname htext hkeyword hprimitive =>
      refine ⟨⟨Text.skipBlanks rest, issues⟩, ?_, Text.skipBlanks_skipBlanks rest⟩
      rw [readForm_noKeyword hname htext hkeyword hrest, if_pos hprimitive]
  | custom hname htext hkeyword hcustom =>
      refine ⟨⟨Text.skipBlanks rest, issues⟩, ?_, Text.skipBlanks_skipBlanks rest⟩
      rw [readForm_noKeyword hname htext hkeyword hrest, hcustom]
      rfl
  | object hname htext hkeyword =>
      exact ⟨_, readForm_object hname htext hkeyword hrest issues, Text.skipBlanks_skipBlanks rest⟩
  | @bracketed head bracket inner close name composite _ hname hhead hkeyword hbracket hinner hclose =>
      have htext : head ++ (bracket ++ (inner ++ close)) ++ rest =
          head ++ (bracket ++ (inner ++ (close ++ rest))) := by
        simp only [List.append_assoc]
      obtain ⟨nameLeft, heq⟩ := readForm_bracket hname hhead hkeyword hbracket issues
      rw [htext, heq]
      exact hinner.read hitem hclose rest issues name nameLeft

end Types

theorem Marks.formEnds {count : Nat} {marks : List Char} (h : Marks count marks)
    {rest : List Char} (hrest : TypeEnds rest) : FormEnds (marks ++ rest) := by
  cases h with
  | none => exact hrest.mono (by simp)
  | more hmark _ =>
      rw [List.append_assoc]
      exact (hmark.heads (by decide) _).mono (by simp)

theorem Marks.count_le_left {count : Nat} {marks rest : List Char} (h : Marks count marks)
    {s : TypeCursor} (hs : Text.skipBlanks s.rest = Text.skipBlanks (marks ++ rest)) :
    count ≤ s.left := by
  have hleft : (Text.skipBlanks s.rest).length ≤ s.left := Text.skipBlanks_length_le s.rest
  cases h with
  | none => exact Nat.zero_le _
  | more hmark hmarks =>
      have hcount := hmarks.count_le
      rw [hs, List.append_assoc, hmark.skipBlanks (by decide), List.length_cons,
        List.length_append, List.length_append] at hleft
      omega

/-- The levels that the grammar allows are those the reader allows. -/
theorem readType_levels (limit : Int) (levels : Nat) :
    ReadsTypes (Levels levels) (TypeExpr.readType limit levels) := by
  induction levels with
  | zero => exact fun h => h.elim
  | succ levels ih =>
      rintro text t ⟨form, marks, count, base, hform, hmarks, hcount, rfl, rfl⟩ rest hrest issues
      rw [List.append_assoc]
      obtain ⟨s, hs, hsrest⟩ := hform.read ih (hmarks.formEnds hrest) issues
      have hsuffixes := hmarks.readSuffixes limit hrest s.issues s.left levels base
        (hmarks.count_le_left hsrest) hcount
      have hsame := readSuffixes_skipBlanks limit s.left levels base s.issues hsrest
      refine ⟨⟨Text.skipBlanks rest, s.issues⟩, ?_, Text.skipBlanks_skipBlanks rest⟩
      rw [TypeExpr.readType, hs]
      exact hsame.trans hsuffixes

/-! ### Whole texts -/

theorem readTrailing_blanks {blanks : List Char} (h : AllBlank blanks) (issues : List TypeIssue) :
    TypeExpr.readTrailing blanks issues = .ok issues := by
  induction blanks with
  | nil => rfl
  | cons c blanks ih =>
      rw [TypeExpr.readTrailing, if_pos (h c List.mem_cons_self)]
      exact ih fun d hd => h d (List.mem_cons_of_mem _ hd)

theorem readForm_skipBlanks (item : TypeReader TypeExpr) (cs : List Char) (issues : List TypeIssue) :
    TypeExpr.readForm item ⟨Text.skipBlanks cs, issues⟩ = TypeExpr.readForm item ⟨cs, issues⟩ := by
  simp only [TypeExpr.readForm, TypeCursor.skipBlanks, Text.skipBlanks_skipBlanks]

theorem readType_skipBlanks (limit : Int) (levels : Nat) (cs : List Char)
    (issues : List TypeIssue) {r : TypeExpr × TypeCursor}
    (h : TypeExpr.readType limit levels ⟨cs, issues⟩ = .ok r) :
    TypeExpr.readType limit levels ⟨Text.skipBlanks cs, issues⟩ = .ok r := by
  cases levels with
  | zero => cases h
  | succ levels => rwa [TypeExpr.readType, readForm_skipBlanks]

theorem readType_nil (limit : Int) (levels : Nat) (issues : List TypeIssue)
    (r : TypeExpr × TypeCursor) : TypeExpr.readType limit levels ⟨[], issues⟩ ≠ .ok r := by
  cases levels with
  | zero => exact nofun
  | succ levels => exact nofun

theorem Derives.readWhole {limit : Int} {cs : List Char} {t : TypeExpr} (h : Derives limit cs t) :
    ∃ issues, TypeExpr.readWhole limit cs = .ok (t, issues) := by
  obtain ⟨text, blanks, htext, hblanks, rfl⟩ := h
  have hskip : Text.skipBlanks blanks = [] := List.dropWhile_eq_nil_iff.mpr hblanks
  have hlevels : (limit + 1 - (0 : Nat)).toNat = (limit + 1).toNat := by
    rw [Nat.cast_zero, sub_zero]
  rw [AtDepth, hlevels] at htext
  have hends : TypeEnds blanks := by
    rw [TypeEnds, Heads, hskip]
    intro c hc
    cases hc
  obtain ⟨s, hs, hrest⟩ := readType_levels limit _ htext hends []
  have hread := readType_skipBlanks limit _ _ [] hs
  have hsblanks : AllBlank s.rest := List.dropWhile_eq_nil_iff.mp (hrest.trans hskip)
  have hne : (Text.skipBlanks (text ++ blanks)).isEmpty = false := by
    rw [List.isEmpty_eq_false_iff]
    intro hempty
    rw [hempty] at hread
    exact readType_nil limit _ [] _ hread
  refine ⟨s.issues, ?_⟩
  simp only [TypeExpr.readWhole, hne, Bool.false_eq_true, if_false, hread, bind, Except.bind,
    readTrailing_blanks hsblanks]
  rfl

end AppSpec.TypeGrammar
