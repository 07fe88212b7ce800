import AppSpec.Proofs.TypeExpr.Grammar.Read
import AppSpec.Proofs.TypeExpr.Prefix

/-!
Every type that is read from a text without constraints is derived from it, and reading such a text
ends at nothing but a fault of the text.
-/

namespace AppSpec

namespace TypeGrammar

open Text (AllBlank)
open TypeExpr (IsIdentifier)

def IsFault : TypeStop → Prop
  | .fault _ => True
  | .failure _ => False

/-- Reading ends with such a result, or at a fault of the text. -/
abbrev Yields {α : Type} (P : α → Prop) : Except TypeStop α → Prop := Ends IsFault P

/-- A text without constraint blocks. -/
def NoBlock (cs : List Char) : Prop := '\x7b' ∉ cs

theorem NoBlock.suffix {cs ds : List Char} (h : NoBlock cs) (hds : ds <:+ cs) : NoBlock ds :=
  fun hmem => h (hds.subset hmem)

/-- Such a text and blanks behind it come before what is left. -/
def Takes (G : List Char → Prop) (cs rest : List Char) : Prop :=
  ∃ text blanks, G text ∧ AllBlank blanks ∧ cs = text ++ (blanks ++ rest)

section Takes

variable {G G' : List Char → Prop} {cs rest : List Char}

theorem Takes.mono (h : Takes G cs rest) (hG : ∀ text, G text → G' text) : Takes G' cs rest := by
  obtain ⟨text, blanks, htext, hrest⟩ := h
  exact ⟨text, blanks, hG text htext, hrest⟩

theorem Takes.suffix (h : Takes G cs rest) : rest <:+ cs := by
  obtain ⟨text, blanks, -, -, rfl⟩ := h
  exact ⟨text ++ blanks, List.append_assoc _ _ _⟩

theorem Takes.skipBlanks (h : Takes G cs rest) : Takes G cs (Text.skipBlanks rest) := by
  obtain ⟨text, blanks, htext, hblanks, rfl⟩ := h
  obtain ⟨more, hmore, hrest⟩ := Text.exists_skipBlanks rest
  refine ⟨text, blanks ++ more, htext, hblanks.append hmore, ?_⟩
  rw [List.append_assoc blanks, ← hrest]

theorem exists_token {c : Char} (h : Text.skipBlanks cs = c :: rest) :
    ∃ token, Token [c] token ∧ cs = token ++ rest := by
  obtain ⟨blanks, hblanks, hcs⟩ := Text.exists_skipBlanks cs
  refine ⟨blanks ++ [c], ⟨blanks, hblanks, rfl⟩, ?_⟩
  rw [hcs, h, List.append_assoc]
  rfl

theorem Takes.token {c : Char} {more : List Char} (h : Takes G cs rest)
    (hrest : Text.skipBlanks rest = c :: more) :
    ∃ text token, G text ∧ Token [c] token ∧ cs = text ++ (token ++ more) := by
  obtain ⟨text, blanks, htext, hblanks, rfl⟩ := h
  obtain ⟨token, htoken, rfl⟩ := exists_token hrest
  exact ⟨text, blanks ++ token, htext, htoken.prepend hblanks, by rw [List.append_assoc blanks]⟩

theorem Takes.after {text token more : List Char} (h : Takes G more rest)
    (hcs : cs = text ++ (token ++ more)) (hG : ∀ later, G later → G' (text ++ (token ++ later))) :
    Takes G' cs rest := by
  obtain ⟨later, blanks, hlater, hblanks, rfl⟩ := h
  refine ⟨_, blanks, hG later hlater, hblanks, ?_⟩
  rw [hcs, List.append_assoc, List.append_assoc]

/-- What is left behind a token is shorter than the whole. -/
theorem Token.left {token text more : List Char} {c : Char} (h : Token [c] token) :
    more <:+ text ++ (token ++ more) ∧ more.length < (text ++ (token ++ more)).length := by
  obtain ⟨blanks, -, rfl⟩ := h
  refine ⟨⟨text ++ (blanks ++ [c]), by rw [List.append_assoc]⟩, ?_⟩
  simp only [List.length_append, List.length_singleton]
  omega

theorem exists_name {name : List Char} (h : TypeText.splitName (Text.skipBlanks cs) = (name, rest))
    (hne : name ≠ []) : IsIdentifier (String.ofList name) ∧
      ∃ head, Token (String.ofList name).toList head ∧ cs = head ++ rest := by
  refine ⟨TypeExpr.isIdentifier_of_splitName h hne, ?_⟩
  obtain ⟨blanks, hblanks, hcs⟩ := Text.exists_skipBlanks cs
  have hsplit := TypeText.splitName_append (Text.skipBlanks cs)
  rw [h] at hsplit
  refine ⟨blanks ++ name, ⟨blanks, hblanks, by rw [String.toList_ofList]⟩, ?_⟩
  rw [hcs, ← hsplit, List.append_assoc]

end Takes

theorem expect_yields (c : Char) (context : Expecting) (s : TypeCursor) :
    Yields (fun s' => Text.skipBlanks s.rest = c :: s'.rest) (TypeExpr.expect c context s) := by
  rw [TypeExpr.expect]
  dsimp only [TypeCursor.skipBlanks]
  split
  · next d rest hrest =>
      split
      · next hd => exact hd ▸ hrest
      · trivial
  · trivial

/-! ### Lists -/

section Lists

variable {Nested : List Char → TypeExpr → Prop} {item : TypeReader TypeExpr}

/-- Nested types are derived from what the reader takes. -/
def YieldsTypes (Nested : List Char → TypeExpr → Prop) (item : TypeReader TypeExpr) : Prop :=
  ∀ s : TypeCursor, NoBlock s.rest →
    Yields (fun r => Takes (fun text => Nested text r.1) s.rest r.2.rest) (item s)

theorem readArguments_yields (hitem : YieldsTypes Nested item) (steps : Nat) (s : TypeCursor)
    (hs : NoBlock s.rest) (hsteps : s.left < steps) :
    Yields (fun r => Takes (fun text => Separated Nested text r.1) s.rest r.2.rest)
      (TypeExpr.readArguments item steps s) := by
  induction steps generalizing s with
  | zero => exact absurd hsteps (Nat.not_lt_zero _)
  | succ steps ih =>
      rw [TypeExpr.readArguments]
      refine (hitem s hs).bind ?_
      rintro ⟨t, s₁⟩ htakes
      dsimp only [TypeCursor.skipBlanks] at htakes ⊢
      split
      · next rest hrest =>
          obtain ⟨text, comma, htext, hcomma, hcs⟩ := htakes.token hrest
          have hleft := hcs ▸ hcomma.left
          refine (ih ⟨rest, s₁.issues⟩ (hs.suffix hleft.1)
            (Nat.lt_of_lt_of_le hleft.2 (Nat.le_of_lt_succ hsteps))).bind ?_
          rintro ⟨ts, s₂⟩ hlater
          exact hlater.after hcs fun later hts => .next htext hcomma hts
      · exact htakes.skipBlanks.mono fun text htext => .last htext

theorem readFields_yields (hitem : YieldsTypes Nested item) (steps : Nat)
    (found : List (String × TypeExpr)) (s : TypeCursor) (hs : NoBlock s.rest)
    (hsteps : s.left < steps) (hfound : (Named.keys found).Nodup) :
    Yields (fun r => ∃ fields, r.1 = found ++ fields ∧ (Named.keys r.1).Nodup ∧
        Takes (fun text => Separated (Field Nested) text fields) s.rest r.2.rest)
      (TypeExpr.readFields item steps found s) := by
  induction steps generalizing found s with
  | zero => exact absurd hsteps (Nat.not_lt_zero _)
  | succ steps ih =>
      rw [TypeExpr.readFields]
      dsimp only [TypeCursor.skipBlanks]
      split
      · trivial
      · next name rest hne hsplit =>
          obtain ⟨hname, head, hhead, hcs⟩ := exists_name hsplit (fun h => hne h)
          refine (expect_yields _ _ _).bind fun s₁ hcolon => ?_
          obtain ⟨colon, hcolon, hrest⟩ := exists_token hcolon
          have hcs : s.rest = head ++ (colon ++ s₁.rest) := hcs.trans (hrest ▸ rfl)
          have hs₁ : NoBlock s₁.rest := hs.suffix (hcs ▸ hcolon.left.1)
          refine (hitem s₁ hs₁).bind ?_
          rintro ⟨t, s₂⟩ htakes
          split
          · trivial
          · next hnew =>
              have hdistinct : (Named.keys (found ++ [(String.ofList name, t)])).Nodup := by
                rw [Named.has_iff_mem_keys] at hnew
                rw [Named.keys, List.map_append]
                refine List.nodup_append.mpr ⟨hfound, List.nodup_singleton _, ?_⟩
                rintro key hkey other hother rfl
                obtain rfl := List.mem_singleton.mp hother
                exact hnew hkey
              have hfield : Takes (fun text => Field Nested text (String.ofList name, t))
                  s.rest s₂.rest :=
                htakes.after hcs fun body hbody => .mk hname hhead hcolon hbody
              dsimp only [TypeCursor.skipBlanks]
              split
              · next more hmore =>
                  obtain ⟨text, comma, htext, hcomma, hcs⟩ := hfield.token hmore
                  have hleft := hcs ▸ hcomma.left
                  refine (ih _ ⟨more, s₂.issues⟩ (hs.suffix hleft.1)
                    (Nat.lt_of_lt_of_le hleft.2 (Nat.le_of_lt_succ hsteps)) hdistinct).result ?_
                  rintro ⟨fields, s₃⟩ ⟨later, hfields, hnodup, hlater⟩
                  refine ⟨_ :: later, by rw [hfields, List.append_assoc]; rfl, hnodup, ?_⟩
                  exact hlater.after hcs fun text' htext' => .next htext hcomma htext'
              · exact ⟨_, rfl, hdistinct, hfield.skipBlanks.mono fun text htext => .last htext⟩

end Lists

/-! ### Values of enumerations -/

theorem quoted_of_splitQuoted {quote : Char} {cs value rest : List Char}
    (h : TypeText.splitQuoted quote cs = (some value, rest)) :
    ∃ body, Quoted quote body value ∧ cs = body ++ quote :: rest := by
  fun_induction TypeText.splitQuoted quote cs generalizing value rest with
  | case1 => cases h
  | case2 c cs text after hsplit ih =>
      cases text with
      | none => cases h
      | some text =>
          cases h
          obtain ⟨body, hbody, rfl⟩ := ih hsplit
          exact ⟨_, .escaped c hbody, rfl⟩
  | case3 cs _ =>
      cases h
      exact ⟨[], .nil, rfl⟩
  | case4 c cs hback hquote text after hsplit ih =>
      cases text with
      | none => cases h
      | some text =>
          cases h
          obtain ⟨body, hbody, rfl⟩ := ih hsplit
          refine ⟨_, .plain ?_ hquote hbody, rfl⟩
          -- a backslash here would have taken the character behind it
          rintro rfl
          cases body with
          | nil => exact hback _ _ rfl rfl
          | cons d body => exact hback _ _ rfl rfl

theorem takes_quoted {quote : Char} (hquote : TypeText.isQuote quote = true)
    {cs more value rest : List Char} (hcs : Text.skipBlanks cs = quote :: more)
    (hsplit : TypeText.splitQuoted quote more = (some value, rest)) :
    Takes (fun text => EnumValue text (String.ofList value)) cs rest := by
  obtain ⟨blanks, hblanks, hskip⟩ := Text.exists_skipBlanks cs
  obtain ⟨body, hbody, rfl⟩ := quoted_of_splitQuoted hsplit
  refine ⟨_, [], .quoted hquote hbody ⟨blanks, hblanks, rfl⟩, Text.allBlank_nil, ?_⟩
  rw [hskip, hcs]
  simp

theorem takes_word {cs raw rest : List Char} (hraw : raw ++ rest = Text.skipBlanks cs)
    (hword : Literal.isEnumWord (Text.trim raw) = true) :
    Takes (fun text => EnumValue text (String.ofList (Text.trim raw))) cs rest := by
  obtain ⟨blanks, hblanks, hskip⟩ := Text.exists_skipBlanks cs
  obtain ⟨before, behind, hbefore, hbehind, htrim⟩ := Text.exists_trim raw
  generalize Text.trim raw = word at hword htrim ⊢
  subst htrim
  refine ⟨_, behind, .word ⟨blanks ++ before, hblanks.append hbefore, rfl⟩ hword, hbehind, ?_⟩
  rw [hskip, ← hraw]
  simp only [List.append_assoc]

theorem readEnumValue_yields (s : TypeCursor) :
    Yields (fun r => Takes (fun text => EnumValue text (String.ofList r.1)) s.rest r.2)
      (TypeExpr.readEnumValue s.skipBlanks) := by
  rw [TypeExpr.readEnumValue]
  split
  · next more hcs =>
      split
      · trivial
      · next hsplit => exact takes_quoted (by decide) hcs hsplit
  · next more hcs =>
      split
      · trivial
      · next hsplit => exact takes_quoted (by decide) hcs hsplit
  · have hraw := TypeText.splitBare_append TypeExpr.isEnumStop 0 s.skipBlanks.rest
    dsimp only
    split
    · trivial
    · split
      · trivial
      · next hword => exact takes_word hraw (by simpa using hword)

theorem readEnumValues_yields (steps : Nat) (found : List String) (s : TypeCursor)
    (hsteps : s.left < steps) :
    Yields (fun r => ∃ values, r.1 = found ++ freshValues found values ∧
        Takes (fun text => Separated EnumValue text values) s.rest r.2.rest)
      (TypeExpr.readEnumValues steps found s) := by
  induction steps generalizing found s with
  | zero => exact absurd hsteps (Nat.not_lt_zero _)
  | succ steps ih =>
      rw [TypeExpr.readEnumValues]
      refine (readEnumValue_yields s).bind ?_
      rintro ⟨value, rest⟩ htakes
      have hmore {found' : List String} {more : List Char}
          (hfound' : found' = found ++ freshValues found [String.ofList value])
          (hrest : Text.skipBlanks rest = ',' :: more) (issues : List TypeIssue) :
          Yields (fun r => ∃ values, r.1 = found ++ freshValues found values ∧
              Takes (fun text => Separated EnumValue text values) s.rest r.2.rest)
            (TypeExpr.readEnumValues steps found' ⟨more, issues⟩) := by
        obtain ⟨text, comma, htext, hcomma, hcs⟩ := htakes.token hrest
        have hleft := hcs ▸ hcomma.left
        refine (ih found' ⟨more, issues⟩
          (Nat.lt_of_lt_of_le hleft.2 (Nat.le_of_lt_succ hsteps))).result ?_
        rintro ⟨read, s'⟩ ⟨values, hread, hlater⟩
        refine ⟨String.ofList value :: values, ?_, hlater.after hcs fun later hvalues =>
          .next htext hcomma hvalues⟩
        rw [hread, hfound', ← freshValues_cons]
      have hlast : Takes (fun text => Separated EnumValue text [String.ofList value]) s.rest
          (Text.skipBlanks rest) := htakes.skipBlanks.mono fun text htext => .last htext
      dsimp only
      cases hfound : found.contains (String.ofList value) with
      | true =>
          have hfound' : found = found ++ freshValues found [String.ofList value] := by
            rw [freshValues_cons_of_found hfound, freshValues_none, List.append_nil]
          split
          · next hrest => exact hmore hfound' hrest _
          · exact ⟨_, hfound', hlast⟩
      | false =>
          have hfound' : found ++ [String.ofList value] =
              found ++ freshValues found [String.ofList value] := by
            rw [freshValues_cons_of_new hfound, freshValues_none]
          split
          · next hrest => exact hmore hfound' hrest _
          · exact ⟨_, hfound', hlast⟩

/-! ### Brackets -/

theorem Field.prepend {Nested : List Char → TypeExpr → Prop} {text blanks : List Char}
    {field : String × TypeExpr} (hblanks : AllBlank blanks) (h : Field Nested text field) :
    Field Nested (blanks ++ text) field := by
  obtain ⟨hname, hhead, hcolon, hbody⟩ := h
  rw [← List.append_assoc]
  exact .mk hname (hhead.prepend hblanks) hcolon hbody

theorem fields_prepend {Nested : List Char → TypeExpr → Prop} {text blanks : List Char}
    {fields : List (String × TypeExpr)} (hblanks : AllBlank blanks)
    (h : Separated (Field Nested) text fields) :
    Separated (Field Nested) (blanks ++ text) fields := by
  cases h with
  | last h => exact .last (h.prepend hblanks)
  | next h hcomma hrest =>
      rw [← List.append_assoc]
      exact .next (h.prepend hblanks) hcomma hrest

section Composite

variable {α : Type} {Nested : List Char → TypeExpr → Prop} {item : TypeReader TypeExpr}

/-- What was in the brackets, and the closing bracket behind it. -/
def Closed (Nested : List Char → TypeExpr → Prop) (composite : Composite) (cs : List Char)
    (r : TypeExpr × TypeCursor) : Prop :=
  ∃ inner close, Inner Nested composite inner r.1 ∧ Token [']'] close ∧
    cs = inner ++ (close ++ r.2.rest)

theorem Takes.close {G : List Char → Prop} {composite : Composite} {cs : List Char} {t : TypeExpr}
    {s : TypeCursor} (h : Takes G cs s.rest)
    (hinner : ∀ inner, G inner → Inner Nested composite inner t) (context : Expecting) :
    Yields (Closed Nested composite cs)
      (do return (t, ← TypeExpr.expect ']' context s)) := by
  refine (expect_yields _ _ _).bind fun s' hclose => ?_
  obtain ⟨inner, close, htext, htoken, hcs⟩ := h.token hclose
  exact ⟨inner, close, hinner inner htext, htoken, hcs⟩

theorem Separated.singleton {Item : List Char → α → Prop} {text : List Char} {a : α}
    (h : Separated Item text [a]) : Item text a := by
  cases h with
  | last h => exact h
  | next _ _ hmore => cases hmore

theorem inner_ofArguments {composite : Composite} {ts : List TypeExpr} {t : TypeExpr}
    {inner : List Char} (ht : TypeExpr.ofArguments composite ts = some t)
    (h : Separated Nested inner ts) : Inner Nested composite inner t := by
  unfold TypeExpr.ofArguments at ht
  split at ht
  · cases ht
    cases h with
    | next hkey hcomma hrest => exact .map hkey hcomma hrest.singleton
  · cases ht
    exact .array h.singleton
  · cases ht
    exact .optional h.singleton
  · cases ht

theorem readComposite_yields (hitem : YieldsTypes Nested item) (composite : Composite)
    (name : String) (nameLeft : Nat) (s : TypeCursor) (hs : NoBlock s.rest) :
    Yields (Closed Nested composite s.rest)
      (TypeExpr.readComposite item composite name nameLeft s) := by
  have harguments (hcomposite : composite = .map ∨ composite = .array ∨ composite = .optional) :
      Yields (Closed Nested composite s.rest)
        (TypeExpr.readComposite item composite name nameLeft s) := by
    rw [TypeExpr.readComposite_arguments item s name nameLeft hcomposite]
    refine (readArguments_yields hitem (s.left + 1) s hs (Nat.lt_succ_self _)).bind ?_
    rintro ⟨arguments, s'⟩ htakes
    dsimp only
    split
    · next t ht => exact htakes.close (fun inner hinner => inner_ofArguments ht hinner) _
    · trivial
  cases composite with
  | enum =>
      refine (readEnumValues_yields (s.left + 1) [] s (Nat.lt_succ_self _)).bind ?_
      rintro ⟨found, s'⟩ ⟨values, hfound, htakes⟩
      obtain rfl : found = values.eraseDups := hfound.trans (freshValues_nil values)
      exact htakes.close (fun inner hinner => .enum hinner) _
  | reference =>
      unfold TypeExpr.readComposite
      dsimp only
      split
      · trivial
      · next target rest hne hsplit =>
          obtain ⟨htarget, head, hhead, hcs⟩ := exists_name hsplit (fun h => hne h)
          refine Takes.close (G := fun text => Token (String.ofList target).toList text)
            ⟨head, [], hhead, Text.allBlank_nil, hcs⟩ (fun inner hinner => ?_) _
          exact .reference htarget hinner
  | object =>
      unfold TypeExpr.readComposite
      dsimp only
      obtain ⟨blanks, hblanks, hskip⟩ := Text.exists_skipBlanks s.rest
      split
      · next more hcs =>
          refine Takes.close (G := fun text => text = []) ⟨[], blanks, rfl, hblanks, hskip⟩
            (fun inner hinner => ?_) _
          rw [hinner]
          exact .noFields
      · refine (readFields_yields hitem (s.skipBlanks.left + 1) [] s.skipBlanks
          (hs.suffix (Text.skipBlanks_suffix s.rest)) (Nat.lt_succ_self _) List.nodup_nil).bind ?_
        rintro ⟨fields, s'⟩ ⟨new, hfields, hdistinct, htakes⟩
        obtain rfl : fields = new := hfields
        obtain ⟨text, behind, htext, hbehind, hcs⟩ := htakes
        refine Takes.close (G := fun text => Separated (Field Nested) text fields)
          ⟨blanks ++ text, behind, fields_prepend hblanks htext, hbehind, ?_⟩
          (fun inner hinner => .fields hinner hdistinct) _
        rw [hskip, List.append_assoc]
        exact congrArg _ hcs
  | map => exact harguments (.inl rfl)
  | array => exact harguments (.inr (.inl rfl))
  | optional => exact harguments (.inr (.inr rfl))

/-! ### Forms and types -/

theorem readForm_yields (hitem : YieldsTypes Nested item) (s : TypeCursor) (hs : NoBlock s.rest) :
    Yields (fun r => Takes (fun text => Form Nested text r.1) s.rest r.2.rest)
      (TypeExpr.readForm item s) := by
  rw [TypeExpr.readForm_eq]
  dsimp only [TypeCursor.skipBlanks]
  split
  · trivial
  · next c cs rest hsplit =>
      obtain ⟨hname, head, hhead, hcs⟩ := exists_name hsplit (List.cons_ne_nil c cs)
      have htakes : Takes (fun text => Token (String.ofList (c :: cs)).toList text) s.rest
          (Text.skipBlanks rest) :=
        Takes.skipBlanks ⟨head, [], hhead, Text.allBlank_nil, hcs⟩
      split
      · next more hmore =>
          obtain ⟨bracket, hbracket, rfl⟩ := exists_token hmore
          split
          · next composite hkeyword =>
              refine (readComposite_yields hitem composite _ _ ⟨more, s.issues⟩
                (hs.suffix (hcs ▸ hbracket.left.1))).result ?_
              rintro ⟨t, s'⟩ ⟨inner, close, hinner, hclose, hrest⟩
              refine ⟨_, [], .bracketed hname hhead hkeyword hbracket hinner hclose,
                Text.allBlank_nil, ?_⟩
              have hmore : more = inner ++ (close ++ s'.rest) := hrest
              rw [hcs, hmore]
              simp only [List.append_assoc, List.nil_append]
          · trivial
      · unfold TypeExpr.readAlone
        split
        · next hkeyword => exact htakes.mono fun text htext => .object hname htext hkeyword
        · trivial
        · next hkeyword =>
            refine htakes.mono fun text htext => ?_
            dsimp only
            split
            · next hprimitive => exact .primitive hname htext hkeyword hprimitive
            · next hcustom => exact .custom hname htext hkeyword (by simpa using hcustom)

end Composite

theorem readSuffixes_yields (limit : Int) (steps depth : Nat) (t : TypeExpr) (s : TypeCursor)
    (hs : NoBlock s.rest) :
    Yields (fun r => ∃ count ≤ depth, r.1 = optionals count t ∧
        Takes (fun text => Marks count text) s.rest r.2.rest)
      (TypeExpr.readSuffixes limit steps depth t s) := by
  induction steps using Nat.strongRecOn generalizing depth t s with
  | ind steps ih =>
      rw [TypeExpr.readSuffixes.eq_def]
      dsimp only [TypeCursor.skipBlanks]
      split
      · next rest n hrest =>
          cases depth with
          | zero => trivial
          | succ depth =>
              obtain ⟨mark, hmark, hcs⟩ := exists_token hrest
              have hsuffix : rest <:+ s.rest := hcs ▸ List.suffix_append _ _
              refine (ih n (Nat.lt_succ_self n) depth (.optional t []) ⟨rest, s.issues⟩
                (hs.suffix hsuffix)).result ?_
              rintro ⟨t', s'⟩ ⟨count, hcount, ht, marks, blanks, hmarks, hblanks, hlater⟩
              refine ⟨count + 1, Nat.succ_le_succ hcount, ht, mark ++ marks, blanks,
                .more hmark hmarks, hblanks, ?_⟩
              rw [List.append_assoc, hcs]
              exact congrArg _ hlater
      · next rest _ hrest =>
          refine absurd ?_ hs
          exact (Text.skipBlanks_suffix s.rest).subset (hrest ▸ List.mem_cons_self)
      · exact ⟨0, Nat.zero_le _, rfl, Takes.skipBlanks ⟨[], [], .none, Text.allBlank_nil, rfl⟩⟩

/-- The question marks that follow a form stand behind it, and whatever blanks there are. -/
theorem levels_of_form {levels count : Nat} {cs rest rest' : List Char} {base : TypeExpr}
    (hform : Takes (fun text => Form (Levels levels) text base) cs rest)
    (hmarks : Takes (Marks count) rest rest') (hcount : count ≤ levels) :
    Takes (fun text => Levels (levels + 1) text (optionals count base)) cs rest' := by
  obtain ⟨form, blanks, hform, hblanks, rfl⟩ := hform
  obtain ⟨marks, behind, hmarks, hbehind, rfl⟩ := hmarks
  cases count with
  | zero =>
      cases hmarks
      refine ⟨form, blanks ++ behind,
        ⟨form, [], 0, base, hform, .none, hcount, (List.append_nil _).symm, rfl⟩,
        hblanks.append hbehind, ?_⟩
      rw [List.nil_append, List.append_assoc]
  | succ count =>
      refine ⟨form ++ (blanks ++ marks), behind,
        ⟨form, blanks ++ marks, count + 1, base, hform, hmarks.prepend hblanks, hcount, rfl, rfl⟩,
        hbehind, ?_⟩
      simp only [List.append_assoc]

theorem readType_yields (limit : Int) (levels : Nat) :
    YieldsTypes (Levels levels) (TypeExpr.readType limit levels) := by
  induction levels with
  | zero => exact fun _ _ => trivial
  | succ levels ih =>
      intro s hs
      rw [TypeExpr.readType]
      refine (readForm_yields ih s hs).bind ?_
      rintro ⟨base, s₁⟩ hform
      refine (readSuffixes_yields limit s₁.left levels base s₁ (hs.suffix hform.suffix)).result ?_
      rintro ⟨t, s₂⟩ ⟨count, hcount, rfl, hmarks⟩
      exact levels_of_form hform hmarks hcount

/-! ### Whole texts -/

theorem readTrailing_yields (cs : List Char) (issues : List TypeIssue) (hcs : '\x7d' ∉ cs) :
    Yields (fun _ => AllBlank cs) (TypeExpr.readTrailing cs issues) := by
  induction cs with
  | nil => exact Text.allBlank_nil
  | cons c cs ih =>
      rw [List.mem_cons, not_or] at hcs
      rw [TypeExpr.readTrailing]
      split
      · next hblank =>
          exact (ih hcs.2).result fun _ hblanks => List.forall_mem_cons.mpr ⟨hblank, hblanks⟩
      · split
        · next hbrace => exact absurd (eq_of_beq hbrace).symm hcs.1
        · trivial

theorem readType_skipped (limit : Int) (levels : Nat) (cs : List Char) (issues : List TypeIssue)
    (hcs : NoBlock cs) :
    Yields (fun r => Takes (fun text => Levels levels text r.1) cs r.2.rest)
      (TypeExpr.readType limit levels ⟨Text.skipBlanks cs, issues⟩) := by
  have h := readType_yields limit levels ⟨cs, issues⟩ hcs
  cases levels with
  | zero => trivial
  | succ levels =>
      rw [TypeExpr.readType] at h ⊢
      rwa [readForm_skipBlanks]

theorem readWhole_yields (limit : Int) (cs : List Char) (hopen : NoBlock cs) (hclose : '\x7d' ∉ cs) :
    Yields (fun r => Derives limit cs r.1) (TypeExpr.readWhole limit cs) := by
  rw [TypeExpr.readWhole]
  dsimp only
  split
  · trivial
  · refine (readType_skipped limit _ cs [] hopen).bind ?_
    rintro ⟨t, s⟩ htakes
    have hs : '\x7d' ∉ s.rest := fun hmem => hclose (htakes.suffix.subset hmem)
    refine (readTrailing_yields s.rest s.issues hs).bind fun issues hrest => ?_
    obtain ⟨text, blanks, htext, hblanks, hcs⟩ := htakes
    refine ⟨text, blanks ++ s.rest, ?_, hblanks.append hrest, hcs⟩
    rw [AtDepth, Nat.cast_zero, sub_zero]
    exact htext

end TypeGrammar

/-- A text without constraints is read as a type exactly if the type is derived from it, and reading
it never fails: no two types are derived from one text. -/
theorem TypeExpr.parse_expression_iff (text path : String) (limit : Int)
    (hopen : '\x7b' ∉ text.toList) (hclose : '\x7d' ∉ text.toList) :
    ∃ r, TypeExpr.parse text path limit = .ok r ∧
      ∀ t, r.expression = some t ↔ TypeGrammar.Derives limit text.toList t := by
  have hyields := TypeGrammar.readWhole_yields limit text.toList hopen hclose
  have hread {t : TypeExpr} (h : TypeGrammar.Derives limit text.toList t) := h.readWhole
  rw [TypeExpr.parse]
  cases hwhole : TypeExpr.readWhole limit text.toList with
  | ok r =>
      obtain ⟨t, issues⟩ := r
      rw [hwhole] at hyields
      refine ⟨_, rfl, fun t' => ⟨?_, fun h => ?_⟩⟩
      · rintro ⟨⟩
        exact hyields
      · obtain ⟨issues', h⟩ := hread h
        cases hwhole.symm.trans h
        rfl
  | error stop =>
      cases stop with
      | fault fault =>
          refine ⟨_, rfl, fun t => ⟨fun h => ?_, fun h => ?_⟩⟩
          · cases h
          · obtain ⟨issues, h⟩ := hread h
            cases hwhole.symm.trans h
      | failure failure =>
          rw [hwhole] at hyields
          exact hyields.elim

theorem TypeExpr.parse_expression_iff_stock :
    TypeGrammar.Derives 3 " Dict [ UUID, object[at : Ref[ Depot]?, kind: enum[a, 'b]']]] ?".toList
      (.optional
        (.map (.primitive "uuid" [])
          (.object [("at", .optional (.reference "Depot" []) []), ("kind", .enum ["a", "b]"] [])] [])
          []) []) := by
  obtain ⟨r, hr, hderives⟩ := TypeExpr.parse_expression_iff
    " Dict [ UUID, object[at : Ref[ Depot]?, kind: enum[a, 'b]']]] ?" "" 3
    (by decide +kernel) (by decide +kernel)
  have hread : TypeExpr.parse
      " Dict [ UUID, object[at : Ref[ Depot]?, kind: enum[a, 'b]']]] ?" "" 3 =
      .ok ⟨some (.optional
        (.map (.primitive "uuid" [])
          (.object [("at", .optional (.reference "Depot" []) []), ("kind", .enum ["a", "b]"] [])] [])
          []) []), []⟩ := by
    cbv
  cases hread.symm.trans hr
  exact (hderives _).mp rfl

end AppSpec
