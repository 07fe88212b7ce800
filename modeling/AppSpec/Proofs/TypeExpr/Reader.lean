import AppSpec.Proofs.Outcome
import AppSpec.TypeExpr.Parser

/-!
What a reader of a type's text has gone through where it comes to a result: one lemma for each of them.
What is left, and with which issues, is told by it, so that no other proof about results has to open
the reader.
-/

namespace AppSpec

namespace TypeCursor

variable (s : TypeCursor)

@[simp]
theorem rest_skipBlanks : s.skipBlanks.rest = Text.skipBlanks s.rest := rfl

@[simp]
theorem issues_skipBlanks : s.skipBlanks.issues = s.issues := rfl

@[simp]
theorem rest_note (kind : TypeIssueKind) (left : Nat) : (s.note kind left).rest = s.rest := rfl

@[simp]
theorem issues_note (kind : TypeIssueKind) (left : Nat) :
    (s.note kind left).issues = s.issues ++ [⟨kind, left⟩] := rfl

end TypeCursor

namespace TypeExpr

variable {item : TypeReader TypeExpr} {limit : Int} {s e : TypeCursor}

theorem expect_eq_ok {c : Char} {context : Expecting} :
    expect c context s = .ok e ↔ Text.skipBlanks s.rest = c :: e.rest ∧ e.issues = s.issues := by
  obtain ⟨left, issues⟩ := e
  constructor
  · intro h
    unfold expect at h
    dsimp only at h
    split at h
    · next heq =>
        split at h
        · next hd =>
            cases h
            exact ⟨hd ▸ heq, rfl⟩
        · cases h
    · cases h
  · rintro ⟨hrest, rfl⟩
    simp only [expect, TypeCursor.skipBlanks, hrest, if_true]

/-! ### Behind a type -/

/-- A block is closed, goes on behind an entry, or is left open where the text or the steps end. -/
theorem readBlock_ok {openLeft steps : Nat} {found found' : Constraints}
    (h : readBlock limit openLeft steps s found = .ok (found', e)) :
    (∃ rest, Text.skipBlanks s.rest = '\x7d' :: rest ∧ found' = found ∧ e = ⟨rest, s.issues⟩) ∨
    (∃ n c cs found₁ s₁, steps = n + 1 ∧ Text.skipBlanks s.rest = c :: cs ∧ c ≠ '\x7d' ∧
      readConstraint limit ⟨c :: cs, s.issues⟩ found = .ok (found₁, s₁) ∧
      readBlock limit openLeft n (endConstraint s₁) found₁ = .ok (found', e)) ∨
    (found' = found ∧ e = s.skipBlanks.note .unclosedBlock openLeft) := by
  unfold readBlock TypeCursor.skipBlanks at h
  dsimp only at h
  split at h
  · next rest heq =>
      cases h
      exact .inl ⟨rest, heq, rfl, rfl⟩
  · next c cs n hbrace heq =>
      obtain ⟨⟨found₁, s₁⟩, hentry, h⟩ := bind_eq_ok.mp h
      rw [heq] at hentry
      exact .inr (.inl ⟨n, c, cs, found₁, s₁, rfl, heq, hbrace, hentry, h⟩)
  · cases h
    exact .inr (.inr ⟨rfl, rfl⟩)

/-- Behind a type stands a question mark, a block, or neither, unless there are no steps left. -/
theorem readSuffixes_ok {steps depth : Nat} {t t' : TypeExpr}
    (h : readSuffixes limit steps depth t s = .ok (t', e)) :
    (∃ n d rest, steps = n + 1 ∧ depth = d + 1 ∧ Text.skipBlanks s.rest = '?' :: rest ∧
      readSuffixes limit n d (.optional t []) ⟨rest, s.issues⟩ = .ok (t', e)) ∨
    (∃ n rest block s₁, steps = n + 1 ∧ Text.skipBlanks s.rest = '\x7b' :: rest ∧
      readBlock limit (rest.length + 1) (rest.length + 1) ⟨rest, s.issues⟩ [] = .ok (block, s₁) ∧
      readSuffixes limit n depth (t.withConstraints (t.constraints.setAll block)) s₁ =
        .ok (t', e)) ∨
    (t' = t ∧ e = s.skipBlanks ∧ (0 < steps →
      (∀ rest, Text.skipBlanks s.rest ≠ '?' :: rest) ∧
      ∀ rest, Text.skipBlanks s.rest ≠ '\x7b' :: rest)) := by
  rw [readSuffixes.eq_def] at h
  dsimp only [TypeCursor.skipBlanks] at h
  split at h
  · next rest n heq =>
      cases depth with
      | zero => cases h
      | succ d => exact .inl ⟨n, d, rest, rfl, rfl, heq, h⟩
  · next rest n heq =>
      obtain ⟨⟨block, s₁⟩, hblock, h⟩ := bind_eq_ok.mp h
      rw [TypeCursor.left, heq, List.length_cons] at hblock
      exact .inr (.inl ⟨n, rest, block, s₁, rfl, heq, hblock, h⟩)
  · next hmark hbrace =>
      cases h
      refine .inr (.inr ⟨rfl, rfl, fun hsteps => ?_⟩)
      obtain ⟨n, rfl⟩ := Nat.exists_eq_succ_of_ne_zero (Nat.ne_of_gt hsteps)
      exact ⟨fun rest hs => hmark rest n hs rfl, fun rest hs => hbrace rest n hs rfl⟩

/-! ### Lists -/

theorem comma_eq_ok {β : Type} {cs : List Char} {again : List Char → Except TypeStop β}
    {done : Except TypeStop β} {b : β} :
    (match cs with
      | ',' :: rest => again rest
      | _ => done) = .ok b ↔
      (∃ rest, cs = ',' :: rest ∧ again rest = .ok b) ∨
        ((∀ rest, cs ≠ ',' :: rest) ∧ done = .ok b) := by
  split
  · next rest =>
      refine ⟨fun h => .inl ⟨rest, rfl, h⟩, ?_⟩
      rintro (⟨_, heq, h⟩ | ⟨hnone, -⟩)
      · cases heq
        exact h
      · exact absurd rfl (hnone rest)
  · next hnone =>
      refine ⟨fun h => .inr ⟨hnone, h⟩, ?_⟩
      rintro (⟨rest, heq, -⟩ | ⟨-, h⟩)
      · exact absurd heq (hnone rest)
      · exact h

/-- Behind an argument stands a comma with the others, or the last one was read. -/
theorem readArguments_eq_ok {steps : Nat} {ts : List TypeExpr} :
    readArguments item (steps + 1) s = .ok (ts, e) ↔
      ∃ t s₁, item s = .ok (t, s₁) ∧
        ((∃ rest, Text.skipBlanks s₁.rest = ',' :: rest ∧
          ∃ ts', readArguments item steps ⟨rest, s₁.issues⟩ = .ok (ts', e) ∧ ts = t :: ts') ∨
        ((∀ rest, Text.skipBlanks s₁.rest ≠ ',' :: rest) ∧ ts = [t] ∧ e = s₁.skipBlanks)) := by
  rw [readArguments, bind_eq_ok, Prod.exists]
  refine exists_congr fun t => exists_congr fun s₁ => and_congr_right fun _ => ?_
  refine comma_eq_ok.trans (or_congr (exists_congr fun rest => and_congr_right fun _ => ?_)
    (and_congr_right fun _ => ?_))
  · constructor
    · intro h
      obtain ⟨⟨ts', s₂⟩, hts, h⟩ := bind_eq_ok.mp h
      cases h
      exact ⟨ts', hts, rfl⟩
    · rintro ⟨ts', hts, rfl⟩
      exact bind_eq_ok.mpr ⟨_, hts, rfl⟩
  · constructor
    · intro h
      cases h
      exact ⟨rfl, rfl⟩
    · rintro ⟨rfl, rfl⟩
      rfl

/-- A field has a name that is none of those before it, and behind it stands a comma with the other
fields, or it is the last one. -/
theorem readFields_eq_ok {steps : Nat} {found fields : List (String × TypeExpr)} :
    readFields item (steps + 1) found s = .ok (fields, e) ↔
      ∃ name rest s₁ t s₂, name ≠ [] ∧ TypeText.splitName (Text.skipBlanks s.rest) = (name, rest) ∧
        expect ':' (.fieldType (String.ofList name)) ⟨rest, s.issues⟩ = .ok s₁ ∧
        item s₁ = .ok (t, s₂) ∧ Named.has found (String.ofList name) = false ∧
        ((∃ tail, Text.skipBlanks s₂.rest = ',' :: tail ∧
          readFields item steps (found ++ [(String.ofList name, t)]) ⟨tail, s₂.issues⟩ =
            .ok (fields, e)) ∨
        ((∀ tail, Text.skipBlanks s₂.rest ≠ ',' :: tail) ∧
          fields = found ++ [(String.ofList name, t)] ∧ e = s₂.skipBlanks)) := by
  rw [readFields]
  dsimp only [TypeCursor.skipBlanks]
  split
  · next heq =>
      refine ⟨nofun, ?_⟩
      rintro ⟨name, rest, s₁, t, s₂, hne, hsplit, -⟩
      exact absurd (Prod.mk.inj (hsplit.symm.trans heq)).1 hne
  · next name rest hne hsplit =>
      constructor
      · intro h
        obtain ⟨s₁, hcolon, h⟩ := bind_eq_ok.mp h
        obtain ⟨⟨t, s₂⟩, ht, h⟩ := bind_eq_ok.mp h
        dsimp only at h
        split at h
        · cases h
        · next hhas =>
            refine ⟨name, rest, s₁, t, s₂, hne, hsplit, hcolon, ht, by simpa using hhas, ?_⟩
            refine (comma_eq_ok.mp h).imp_right fun ⟨hcomma, h⟩ => ?_
            cases h
            exact ⟨hcomma, rfl, rfl⟩
      · rintro ⟨_, _, s₁, t, s₂, -, heq, hcolon, ht, hhas, hcases⟩
        cases hsplit.symm.trans heq
        refine bind_eq_ok.mpr ⟨s₁, hcolon, bind_eq_ok.mpr ⟨_, ht, ?_⟩⟩
        dsimp only
        rw [if_neg (Bool.eq_false_iff.mp hhas)]
        refine comma_eq_ok.mpr (hcases.imp_right fun ⟨hcomma, hfields, he⟩ => ⟨hcomma, ?_⟩)
        rw [hfields, he]
        rfl

/-- A value that came up before is an issue and is not taken again. -/
def EnumValueTaken (found : List String) (value : String) (s : TypeCursor)
    (found' : List String) (issues : List TypeIssue) : Prop :=
  found.contains value = true ∧ found' = found ∧
      issues = (s.note (.duplicateEnumValue value) s.left).issues ∨
    found.contains value = false ∧ found' = found ++ [value] ∧ issues = s.issues

theorem readEnumValues_eq_ok {steps : Nat} {found values : List String} :
    readEnumValues (steps + 1) found s = .ok (values, e) ↔
      ∃ text rest found₁ issues₁, readEnumValue s.skipBlanks = .ok (text, rest) ∧
        EnumValueTaken found (String.ofList text) s.skipBlanks found₁ issues₁ ∧
        ((∃ tail, Text.skipBlanks rest = ',' :: tail ∧
          readEnumValues steps found₁ ⟨tail, issues₁⟩ = .ok (values, e)) ∨
        ((∀ tail, Text.skipBlanks rest ≠ ',' :: tail) ∧ values = found₁ ∧
          e = ⟨Text.skipBlanks rest, issues₁⟩)) := by
  rw [readEnumValues, bind_eq_ok, Prod.exists]
  refine exists_congr fun text => exists_congr fun rest => ?_
  have hlast (found₁ : List String) (issues₁ : List TypeIssue) :
      (.ok (found₁, ⟨Text.skipBlanks rest, issues₁⟩) : Except TypeStop _) = .ok (values, e) ↔
        values = found₁ ∧ e = ⟨Text.skipBlanks rest, issues₁⟩ := by
    rw [Except.ok.injEq, Prod.mk.injEq, eq_comm, @eq_comm _ _ e]
  constructor
  · rintro ⟨hvalue, h⟩
    dsimp only at h
    cases hknown : found.contains (String.ofList text) with
    | true =>
        simp only [hknown, if_true] at h
        refine ⟨found, _, hvalue, .inl ⟨hknown, rfl, rfl⟩, ?_⟩
        exact (comma_eq_ok.mp h).imp_right (And.imp_right (hlast _ _).mp)
    | false =>
        simp only [hknown, Bool.false_eq_true, if_false] at h
        refine ⟨_, _, hvalue, .inr ⟨hknown, rfl, rfl⟩, ?_⟩
        exact (comma_eq_ok.mp h).imp_right (And.imp_right (hlast _ _).mp)
  · rintro ⟨found₁, issues₁, hvalue, htaken, hcases⟩
    refine ⟨hvalue, ?_⟩
    have h := comma_eq_ok.mpr (hcases.imp_right (And.imp_right (hlast _ _).mpr))
    rcases htaken with ⟨hknown, rfl, rfl⟩ | ⟨hknown, rfl, rfl⟩
    · simp only [hknown, if_true]
      exact h
    · simp only [hknown, Bool.false_eq_true, if_false]
      exact h

/-! ### Brackets -/

/-- The type that a composite type's arguments make, if it takes arguments and so many of them. -/
def ofArguments : Composite → List TypeExpr → Option TypeExpr
  | .map, [key, value] => some (.map key value [])
  | .array, [element] => some (.array element [])
  | .optional, [inner] => some (.optional inner [])
  | _, _ => none

/-- What stands in the brackets of a composite type, and what is left where the last is expected. -/
inductive Contents (item : TypeReader TypeExpr) (s : TypeCursor) :
    Composite → TypeExpr → TypeCursor → Prop
  | enum {values : List String} {e : TypeCursor}
      (h : readEnumValues (s.left + 1) [] s = .ok (values, e)) :
      Contents item s .enum (.enum values []) e
  | reference {target rest : List Char} (hne : target ≠ [])
      (h : TypeText.splitName (Text.skipBlanks s.rest) = (target, rest)) :
      Contents item s .reference (.reference (String.ofList target) []) ⟨rest, s.issues⟩
  | noFields {rest : List Char} (h : Text.skipBlanks s.rest = ']' :: rest) :
      Contents item s .object (.object [] []) s.skipBlanks
  | fields {fields : List (String × TypeExpr)} {e : TypeCursor}
      (hne : ∀ rest, Text.skipBlanks s.rest ≠ ']' :: rest)
      (h : readFields item (s.skipBlanks.left + 1) [] s.skipBlanks = .ok (fields, e)) :
      Contents item s .object (.object fields []) e
  | arguments {composite : Composite} {ts : List TypeExpr} {t : TypeExpr} {e : TypeCursor}
      (h : readArguments item (s.left + 1) s = .ok (ts, e)) (ht : ofArguments composite ts = some t) :
      Contents item s composite t e

section

variable {composite : Composite} {name : String} {nameLeft : Nat} {t : TypeExpr}

theorem readComposite_arguments (item : TypeReader TypeExpr) (s : TypeCursor) (name : String)
    (nameLeft : Nat) (h : composite = .map ∨ composite = .array ∨ composite = .optional) :
    readComposite item composite name nameLeft s =
      readArguments item (s.left + 1) s >>= fun r =>
        match ofArguments composite r.1 with
        | some t => do return (t, ← expect ']' (.closing name nameLeft) r.2)
        | none => .error (.fault
            ⟨.argumentCount name (decide (composite = .map)) r.1.length, nameLeft⟩) := by
  rcases h with rfl | rfl | rfl
  all_goals
    refine bind_congr fun r => ?_
    obtain ⟨ts, e⟩ := r
    rcases ts with _ | ⟨t, _ | ⟨u, _ | _⟩⟩
  all_goals rfl

theorem takesArguments_of_ofArguments {ts : List TypeExpr} (h : ofArguments composite ts = some t) :
    composite = .map ∨ composite = .array ∨ composite = .optional := by
  cases composite <;> simp [ofArguments] at h ⊢

theorem contents_of_readComposite (h : readComposite item composite name nameLeft s = .ok (t, e)) :
    ∃ s₁, Contents item s composite t s₁ ∧ expect ']' (.closing name nameLeft) s₁ = .ok e := by
  have harguments (hcomposite : composite = .map ∨ composite = .array ∨ composite = .optional) :
      ∃ s₁, Contents item s composite t s₁ ∧ expect ']' (.closing name nameLeft) s₁ = .ok e := by
    rw [readComposite_arguments item s name nameLeft hcomposite] at h
    obtain ⟨⟨ts, s₁⟩, hts, h⟩ := bind_eq_ok.mp h
    dsimp only at h
    split at h
    · next u hu =>
        obtain ⟨s₂, hclose, h⟩ := bind_eq_ok.mp h
        cases h
        exact ⟨s₁, .arguments hts hu, hclose⟩
    · cases h
  cases composite with
  | enum =>
      obtain ⟨⟨values, s₁⟩, hvalues, h⟩ := bind_eq_ok.mp h
      obtain ⟨s₂, hclose, h⟩ := bind_eq_ok.mp h
      cases h
      exact ⟨s₁, .enum hvalues, hclose⟩
  | reference =>
      unfold readComposite at h
      dsimp only at h
      split at h
      · cases h
      · next hne hsplit =>
          obtain ⟨s₂, hclose, h⟩ := bind_eq_ok.mp h
          cases h
          exact ⟨_, .reference hne hsplit, hclose⟩
  | object =>
      unfold readComposite at h
      dsimp only at h
      split at h
      · next hbracket =>
          obtain ⟨s₂, hclose, h⟩ := bind_eq_ok.mp h
          cases h
          exact ⟨_, .noFields hbracket, hclose⟩
      · next hbracket =>
          obtain ⟨⟨fields, s₁⟩, hfields, h⟩ := bind_eq_ok.mp h
          obtain ⟨s₂, hclose, h⟩ := bind_eq_ok.mp h
          cases h
          exact ⟨s₁, .fields hbracket hfields, hclose⟩
  | map => exact harguments (.inl rfl)
  | array => exact harguments (.inr (.inl rfl))
  | optional => exact harguments (.inr (.inr rfl))

theorem Contents.readComposite (h : Contents item s composite t e) {s' : TypeCursor}
    (hclose : expect ']' (.closing name nameLeft) e = .ok s') :
    readComposite item composite name nameLeft s = .ok (t, s') := by
  cases h with
  | enum h => exact bind_eq_ok.mpr ⟨_, h, bind_eq_ok.mpr ⟨_, hclose, rfl⟩⟩
  | reference hne h =>
      unfold TypeExpr.readComposite
      dsimp only [TypeCursor.skipBlanks]
      rw [h]
      split
      · next heq => exact absurd (Prod.mk.inj heq).1 hne
      · next heq =>
          cases heq
          exact bind_eq_ok.mpr ⟨_, hclose, rfl⟩
  | noFields h =>
      unfold TypeExpr.readComposite
      dsimp only [TypeCursor.skipBlanks] at hclose ⊢
      rw [h] at hclose ⊢
      exact bind_eq_ok.mpr ⟨_, hclose, rfl⟩
  | fields hne h =>
      unfold TypeExpr.readComposite
      dsimp only
      split
      · next heq => exact absurd heq (hne _)
      · exact bind_eq_ok.mpr ⟨_, h, bind_eq_ok.mpr ⟨_, hclose, rfl⟩⟩
  | arguments h ht =>
      rw [readComposite_arguments item s name nameLeft (takesArguments_of_ofArguments ht)]
      refine bind_eq_ok.mpr ⟨_, h, ?_⟩
      dsimp only
      rw [ht]
      exact bind_eq_ok.mpr ⟨_, hclose, rfl⟩

/-! ### Forms -/

/-- The type that a name is on its own. -/
def readAlone (name : String) : TypeReader TypeExpr := fun s =>
  match keyword? name with
  | some .object => .ok (.object [] [], s)
  | some _ => faultAt s (.requiresArguments name)
  | none => .ok (if isPrimitive name then .primitive name.toLower [] else .custom name [], s)

section

variable {name rest : List Char} (hne : name ≠ [])
  (hsplit : TypeText.splitName (Text.skipBlanks s.rest) = (name, rest))

include hne hsplit

theorem readForm_brackets {inner : List Char} (hbracket : Text.skipBlanks rest = '[' :: inner) :
    readForm item s =
      match keyword? (String.ofList name) with
      | some composite =>
          readComposite item composite (String.ofList name) s.skipBlanks.left ⟨inner, s.issues⟩
      | none => faultAt ⟨'[' :: inner, s.issues⟩ (.takesNoArguments (String.ofList name)) := by
  unfold readForm
  dsimp only [TypeCursor.skipBlanks]
  rw [hsplit]
  split
  · next heq => exact absurd (Prod.mk.inj heq).1 hne
  · next heq =>
      cases heq
      rw [hbracket]
      cases keyword? (String.ofList name) <;> rfl

theorem readForm_plain (hbracket : ∀ inner, Text.skipBlanks rest ≠ '[' :: inner) :
    readForm item s = readAlone (String.ofList name) ⟨Text.skipBlanks rest, s.issues⟩ := by
  unfold readForm readAlone
  dsimp only [TypeCursor.skipBlanks]
  rw [hsplit]
  split
  · next heq => exact absurd (Prod.mk.inj heq).1 hne
  · next heq =>
      cases heq
      split
      · next hopen _ => exact absurd hopen (hbracket _)
      · next hopen _ => exact absurd hopen (hbracket _)
      · next hkeyword _ =>
          rw [hkeyword]
          rfl
      · next hother hkeyword _ =>
          rw [hkeyword]
          split
          · next heq => exact absurd (Option.some.inj heq) hother
          · rfl
          · next heq => cases heq
      · next hkeyword _ =>
          rw [hkeyword]
          cases isPrimitive (String.ofList name) <;> rfl

end

/-- A form is told by its name and by whether a bracket stands behind it. -/
theorem readForm_eq (item : TypeReader TypeExpr) (s : TypeCursor) :
    readForm item s =
      match TypeText.splitName s.skipBlanks.rest with
      | ([], _) => faultAt s.skipBlanks (.expectedTypeName s.skipBlanks.peek)
      | (c :: cs, rest) =>
          match Text.skipBlanks rest with
          | '[' :: inner =>
              match keyword? (String.ofList (c :: cs)) with
              | some composite =>
                  readComposite item composite (String.ofList (c :: cs)) s.skipBlanks.left
                    ⟨inner, s.skipBlanks.issues⟩
              | none => faultAt ⟨'[' :: inner, s.skipBlanks.issues⟩
                  (.takesNoArguments (String.ofList (c :: cs)))
          | after => readAlone (String.ofList (c :: cs)) ⟨after, s.skipBlanks.issues⟩ := by
  cases hsplit : TypeText.splitName s.skipBlanks.rest with
  | mk name rest =>
      rcases name with _ | ⟨c, cs⟩
      · unfold readForm
        dsimp only
        rw [hsplit]
      · dsimp only
        split
        · next hbracket => exact readForm_brackets (List.cons_ne_nil c cs) hsplit hbracket
        · next hbracket => exact readForm_plain (List.cons_ne_nil c cs) hsplit hbracket

theorem readAlone_ok {name : String} (h : readAlone name s = .ok (t, e)) :
    e = s ∧ (keyword? name = some .object ∧ t = .object [] [] ∨
      keyword? name = none ∧
        t = if isPrimitive name then .primitive name.toLower [] else .custom name []) := by
  unfold readAlone at h
  split at h
  · next hkeyword =>
      cases h
      exact ⟨rfl, .inl ⟨hkeyword, rfl⟩⟩
  · cases h
  · next hkeyword =>
      cases h
      exact ⟨rfl, .inr ⟨hkeyword, rfl⟩⟩

/-- A type's name stands in front of brackets, or on its own. -/
theorem readForm_ok (h : readForm item s = .ok (t, e)) :
    ∃ name rest, name ≠ [] ∧ TypeText.splitName (Text.skipBlanks s.rest) = (name, rest) ∧
      ((∃ inner composite, Text.skipBlanks rest = '[' :: inner ∧
        keyword? (String.ofList name) = some composite ∧
        readComposite item composite (String.ofList name) s.skipBlanks.left ⟨inner, s.issues⟩ =
          .ok (t, e)) ∨
      ((∀ inner, Text.skipBlanks rest ≠ '[' :: inner) ∧
        readAlone (String.ofList name) ⟨Text.skipBlanks rest, s.issues⟩ = .ok (t, e))) := by
  cases hsplit : TypeText.splitName (Text.skipBlanks s.rest) with
  | mk name rest =>
      have hne : name ≠ [] := by
        rintro rfl
        unfold readForm TypeCursor.skipBlanks at h
        dsimp only at h
        rw [hsplit] at h
        cases h
      refine ⟨name, rest, hne, rfl, ?_⟩
      by_cases hbracket : ∃ inner, Text.skipBlanks rest = '[' :: inner
      · obtain ⟨inner, hbracket⟩ := hbracket
        rw [readForm_brackets hne hsplit hbracket] at h
        split at h
        · next composite hkeyword => exact .inl ⟨inner, composite, hbracket, hkeyword, h⟩
        · cases h
      · rw [not_exists] at hbracket
        rw [readForm_plain hne hsplit hbracket] at h
        exact .inr ⟨hbracket, h⟩

end

end TypeExpr

end AppSpec
