import AppSpec.Proofs.TypeExpr.Canonical
import AppSpec.Proofs.TypeExpr.Constraint.Block
import AppSpec.Proofs.TypeExpr.Place

/-!
Reading a text inside a longer one. What is read without an issue is read the same where a comma or
a closing bracket stands behind the text, and where types and lists may nest deeper. A repetition
that reads on behind a comma has to stop within the text itself.
-/

namespace AppSpec

theorem TypeExpr.Ends.skipBlanks_append {more : List Char} (hmore : TypeExpr.Ends more)
    (cs : List Char) : Text.skipBlanks (cs ++ more) = Text.skipBlanks cs ++ more := by
  by_cases hnil : Text.skipBlanks cs = []
  · have hempty : (cs.dropWhile Text.isBlank).isEmpty = true := List.isEmpty_iff.mpr hnil
    rw [Text.skipBlanks, List.dropWhile_append, if_pos hempty, ← Text.skipBlanks, hmore.skipBlanks,
      hnil, List.nil_append]
  · exact Text.skipBlanks_more hnil more

theorem TypeExpr.Ends.noNameHead {more : List Char} (hmore : TypeExpr.Ends more) :
    TypeText.NoNameHead more := by
  intro c hc
  rcases hmore c hc with rfl | rfl
  · decide
  · decide

theorem TypeExpr.Ends.splitName_append {more : List Char} (hmore : TypeExpr.Ends more)
    (cs : List Char) :
    TypeText.splitName (cs ++ more) =
      ((TypeText.splitName cs).1, (TypeText.splitName cs).2 ++ more) := by
  cases cs with
  | nil =>
      cases more with
      | nil => rfl
      | cons d more =>
          have hd := hmore.noNameHead d rfl
          rw [TypeText.isNameChar, Bool.or_eq_false_iff] at hd
          simp [TypeText.splitName, hd.1]
  | cons c cs =>
      by_cases hnil : (TypeText.splitName (c :: cs)).2 = []
      · cases hc : TypeText.isNameStart c with
        | false =>
            rw [TypeText.splitName, hc] at hnil
            cases hnil
        | true =>
            rw [TypeText.splitName, if_pos hc] at hnil
            have hname : ∀ d ∈ cs, TypeText.isNameChar d = true := List.dropWhile_eq_nil_iff.mp hnil
            have hend : TypeText.NoNameHead [] := by
              rintro d hd
              cases hd
            have hall : TypeText.splitName (c :: cs ++ []) = (c :: cs, []) :=
              TypeText.splitName_cons hc hname hend
            rw [List.append_nil] at hall
            rw [TypeText.splitName_cons hc hname hmore.noNameHead, hall, List.nil_append]
      · exact TypeText.splitName_more hnil more

namespace TypeExpr

variable {α : Type} {more cs rest : List Char} {limit limit' : Int} {s e : TypeCursor}
  {issues : List TypeIssue}

/-- Where nothing of the text is left, nothing may follow it. -/
def Inside (more rest : List Char) : Prop := rest = [] → more = []

theorem Ends.skipBlanks_cursor (hmore : Ends more) (s : TypeCursor) (issues : List TypeIssue) :
    TypeCursor.skipBlanks ⟨s.rest ++ more, issues⟩ = ⟨s.skipBlanks.rest ++ more, issues⟩ := by
  rw [TypeCursor.skipBlanks, hmore.skipBlanks_append, TypeCursor.skipBlanks]

theorem inside_of_skipBlanks {c : Char} (h : Text.skipBlanks cs = c :: rest) :
    Inside more cs := by
  rintro rfl
  cases h

/-- What is split off in front is split off the longer text as well. -/
theorem Inside.split {split : List Char → α × List Char} (h : Inside more (split cs).2)
    (hsplit : (split cs).2 ≠ [] → split (cs ++ more) = ((split cs).1, (split cs).2 ++ more)) :
    split (cs ++ more) = ((split cs).1, (split cs).2 ++ more) := by
  by_cases hnil : (split cs).2 = []
  · obtain rfl := h hnil
    rw [List.append_nil, List.append_nil]
  · exact hsplit hnil

theorem Ends.ne_cons {d : Char} {ds : List Char} (hmore : Ends more) (hd : d ≠ ',' ∧ d ≠ ']')
    (h : ∀ rest, cs ≠ d :: rest) : cs ++ more ≠ d :: ds := by
  intro heq
  cases cs with
  | nil =>
      rw [List.nil_append] at heq
      rcases hmore d (heq ▸ rfl) with rfl | rfl
      · exact hd.1 rfl
      · exact hd.2 rfl
  | cons c cs =>
      obtain ⟨rfl, -⟩ := List.cons.inj heq
      exact h cs rfl

/-! ### Literals -/

def CarriesLiteral (more : List Char) (read read' : LiteralReader) : Prop :=
  ∀ cs v rest, read cs = .ok (some v, rest) → Inside more rest →
    read' (cs ++ more) = .ok (some v, rest ++ more)

theorem carries_readItems (hmore : Ends more) {item item' : LiteralReader}
    (hitem : CarriesLiteral more item item') (steps steps' : Nat) (hsteps : steps ≤ steps')
    {values : List Value} (h : readItems item steps cs = .ok (some values, rest)) :
    readItems item' steps' (cs ++ more) = .ok (some values, rest ++ more) := by
  induction steps generalizing steps' cs values with
  | zero => cases h
  | succ steps ih =>
      obtain ⟨steps', rfl⟩ : ∃ n, steps' = n + 1 := ⟨steps' - 1, by omega⟩
      obtain ⟨_, value, after, hn, hvalue, hcases⟩ := Literal.readItems_some h
      cases hn
      have hinside : Inside more after := by
        rcases hcases with ⟨hclose, -⟩ | ⟨_, _, hcomma, -⟩
        · exact inside_of_skipBlanks hclose
        · exact inside_of_skipBlanks hcomma
      have hblanks := hmore.skipBlanks_append after
      rw [readItems, hmore.skipBlanks_append, hitem _ _ _ hvalue hinside]
      dsimp only [bind, Except.bind]
      rw [hblanks]
      rcases hcases with ⟨hclose, rfl⟩ | ⟨tail, values, hcomma, hvalues, rfl⟩
      · rw [hclose]
        rfl
      · rw [hcomma]
        show (readItems item' steps' (tail ++ more) >>= _) = _
        rw [ih steps' (Nat.le_of_succ_le_succ hsteps) hvalues]
        rfl

theorem readItems_ne_nil {item : LiteralReader} (hitem : BoundedText item) {steps : Nat}
    {values : List Value} (h : readItems item steps cs = .ok (some values, rest)) :
    Text.skipBlanks cs ≠ [] := by
  intro hnil
  obtain ⟨_, value, after, -, hvalue, hcases⟩ := Literal.readItems_some h
  have hbounded := hitem _ (Text.skipBlanks cs) le_rfl
  rw [hvalue, hnil] at hbounded
  obtain rfl : after = [] := List.suffix_nil.mp hbounded
  rcases hcases with ⟨hclose, -⟩ | ⟨_, _, hcomma, -⟩
  · cases hclose
  · cases hcomma

theorem carries_readList (hmore : Ends more) {item item' : LiteralReader}
    (hbounded : BoundedText item) (hitem : CarriesLiteral more item item') :
    CarriesLiteral more (readList item) (readList item') := by
  intro cs v rest h hrest
  have hblanks := hmore.skipBlanks_append cs
  unfold readList at h ⊢
  rw [hblanks]
  split at h
  · next after heq =>
      cases h
      rw [heq]
      rfl
  · next hclose =>
      obtain ⟨⟨values, last⟩, hvalues, h⟩ := bind_eq_ok.mp h
      cases values with
      | none => cases h
      | some values =>
          cases h
          have hlength : (Text.skipBlanks cs).length ≤ (Text.skipBlanks cs ++ more).length := by
            rw [List.length_append]
            exact Nat.le_add_right _ _
          have hlong := carries_readItems hmore hitem _ _ (Nat.succ_le_succ hlength) hvalues
          obtain ⟨c, ds, hskip⟩ := List.exists_cons_of_ne_nil (readItems_ne_nil hbounded hvalues)
          rw [Text.skipBlanks_skipBlanks] at hskip
          split
          · next heq =>
              rw [hskip] at heq hclose
              obtain ⟨rfl, -⟩ := List.cons.inj heq
              exact absurd rfl (hclose ds)
          · rw [hlong]
            rfl

theorem carries_readLiteralWith {list list' : LiteralReader}
    (hlist : CarriesLiteral more list list') :
    CarriesLiteral more (readLiteralWith list) (readLiteralWith list') := by
  intro cs v rest h hrest
  have hquoted (quote : Char) (cs : List Char)
      (h : (.ok ((TypeText.splitQuoted quote cs).1.map fun cs => Value.str (String.ofList cs),
        (TypeText.splitQuoted quote cs).2) : Except TypeStop _) = .ok (some v, rest)) :
      (.ok ((TypeText.splitQuoted quote (cs ++ more)).1.map fun cs => Value.str (String.ofList cs),
        (TypeText.splitQuoted quote (cs ++ more)).2) : Except TypeStop _) =
          .ok (some v, rest ++ more) := by
    obtain ⟨htext, rfl⟩ := Prod.mk.inj (Except.ok.inj h)
    rw [hrest.split fun hne => TypeText.splitQuoted_more hne more, htext]
  by_cases hopen : ∃ ds, cs = '[' :: ds
  · obtain ⟨ds, rfl⟩ := hopen
    exact hlist ds v rest h hrest
  by_cases hsingle : ∃ ds, cs = '\'' :: ds
  · obtain ⟨ds, rfl⟩ := hsingle
    exact hquoted '\'' ds h
  by_cases hdouble : ∃ ds, cs = '"' :: ds
  · obtain ⟨ds, rfl⟩ := hdouble
    exact hquoted '"' ds h
  rw [not_exists] at hopen hsingle hdouble
  rw [readLiteralWith_unquoted list hopen hsingle hdouble] at h
  cases cs with
  | nil =>
      have hnone :
          Literal.read (Text.trim (TypeText.splitBare isLiteralStop 0 []).1) = .ok none := by
        cbv
      rw [hnone] at h
      cases h
  | cons c cs =>
      have hother {d : Char} (hd : ∀ ds, c :: cs ≠ d :: ds) (ds : List Char) :
          c :: cs ++ more ≠ d :: ds := by
        intro heq
        obtain ⟨rfl, -⟩ := List.cons.inj heq
        exact hd cs rfl
      rw [readLiteralWith_unquoted list' (hother hopen) (hother hsingle) (hother hdouble)]
      split at h
      · next value hread =>
          obtain ⟨hvalue, rfl⟩ := Prod.mk.inj (Except.ok.inj h)
          rw [hrest.split fun hne => TypeText.splitBare_more hne more, hread]
          dsimp only
          rw [hvalue]
      · cases h

theorem carries_readLiteral (hmore : Ends more) (depth depth' : Nat) (hdepth : depth ≤ depth') :
    CarriesLiteral more (readLiteral limit depth) (readLiteral limit' depth') := by
  induction depth generalizing depth' with
  | zero =>
      cases depth' with
      | zero => exact carries_readLiteralWith nofun
      | succ depth' => exact carries_readLiteralWith nofun
  | succ depth ih =>
      obtain ⟨depth', rfl⟩ : ∃ n, depth' = n + 1 := ⟨depth' - 1, by omega⟩
      exact carries_readLiteralWith (carries_readList hmore (bounded_readLiteral limit depth)
        (ih depth' (Nat.le_of_succ_le_succ hdepth)))

/-! ### Blocks -/

/-- What is read without an issue, up to a place that the text itself has where `stays` holds. -/
def CarriesWhere (stays : List Char → Prop) (more : List Char) (read read' : TypeReader α) : Prop :=
  ∀ s issues a e, read s = .ok (a, e) → e.issues = s.issues → stays e.rest →
    read' ⟨s.rest ++ more, issues⟩ = .ok (a, ⟨e.rest ++ more, issues⟩)

abbrev CarriesInside (more : List Char) (read read' : TypeReader α) : Prop :=
  CarriesWhere (Inside more) more read read'

abbrev Carries (more : List Char) (read read' : TypeReader α) : Prop :=
  CarriesWhere (fun _ => True) more read read'

theorem carries_readConstraint (hmore : Ends more) (hlimit : limit.toNat ≤ limit'.toNat)
    (found : Constraints) : CarriesInside more (fun s => readConstraint limit s found)
      (fun s => readConstraint limit' s found) := by
  intro s issues found' e h hclean hinside
  unfold readConstraint at h ⊢
  dsimp only at h ⊢
  rw [hmore.splitName_append]
  generalize TypeText.splitName s.rest = split at h
  obtain ⟨_ | ⟨c, name⟩, rest⟩ := split
  · cases h
    exact absurd hclean (issues_ne_note _ _ _)
  dsimp only at h ⊢
  rw [hmore.skipBlanks_append]
  generalize Text.skipBlanks rest = after at h
  split at h
  · next value =>
      split
      · next tail heq =>
          obtain rfl : value ++ more = tail := (List.cons.inj heq).2
          have hread : CarriesLiteral more (readLiteral limit limit.toNat)
              (readLiteral limit' limit'.toNat) := carries_readLiteral hmore _ _ hlimit
          rw [hmore.skipBlanks_append]
          split at h
          · cases h
            exact absurd hclean (issues_ne_note _ _ _)
          · cases h
          · next v after hvalue =>
              cases h
              rw [hread _ v after hvalue hinside]
          · cases h
            exact absurd hclean (issues_ne_note _ _ _)
      · next hcolon => exact absurd rfl (hcolon (value ++ more))
  · next hcolon =>
      cases h
      split
      · next heq => exact absurd heq (hmore.ne_cons (by decide) hcolon)
      · rfl

theorem carries_endConstraint (hmore : Ends more) (issues : List TypeIssue)
    (hclean : (endConstraint s).issues = s.issues) (hrest : (endConstraint s).rest ≠ []) :
    endConstraint ⟨s.rest ++ more, issues⟩ = ⟨(endConstraint s).rest ++ more, issues⟩ := by
  have hblanks := hmore.skipBlanks_append s.rest
  unfold endConstraint TypeCursor.skipBlanks at hclean hrest ⊢
  dsimp only at hclean hrest ⊢
  rw [hblanks]
  generalize Text.skipBlanks s.rest = after at hclean hrest
  rcases after with _ | ⟨c, after⟩
  · exact absurd rfl hrest
  by_cases hcomma : c = ','
  · subst hcomma
    rfl
  by_cases hbrace : c = '\x7d'
  · subst hbrace
    rfl
  split at hclean
  · next heq => exact absurd (List.cons.inj heq).1 hcomma
  · next heq => exact absurd (List.cons.inj heq).1 hbrace
  · next heq => cases heq
  · exact absurd hclean (issues_ne_note _ _ _)

theorem readBlock_closed (limit : Int) (openLeft steps : Nat)
    (hs : Text.skipBlanks cs = '\x7d' :: rest) (issues : List TypeIssue) (found : Constraints) :
    readBlock limit openLeft steps ⟨cs, issues⟩ found = .ok (found, ⟨rest, issues⟩) := by
  rw [readBlock.eq_def]
  simp only [TypeCursor.skipBlanks, hs]

/-- A block that is read without an issue is closed, or begins with an entry. -/
theorem readBlock_clean {openLeft steps : Nat} {found found' : Constraints}
    (h : readBlock limit openLeft steps s found = .ok (found', e)) (hclean : e.issues = s.issues) :
    (∃ rest, Text.skipBlanks s.rest = '\x7d' :: rest ∧ found' = found ∧ e = ⟨rest, s.issues⟩) ∨
      ∃ n c cs found₁ s₁, steps = n + 1 ∧ Text.skipBlanks s.rest = c :: cs ∧ c ≠ '\x7d' ∧
        readConstraint limit ⟨c :: cs, s.issues⟩ found = .ok (found₁, s₁) ∧
        readBlock limit openLeft n (endConstraint s₁) found₁ = .ok (found', e) := by
  rcases readBlock_ok h with hclosed | hentry | ⟨-, rfl⟩
  · exact .inl hclosed
  · exact .inr hentry
  · exact absurd hclean (issues_ne_note _ _ _)

theorem readBlock_issues {openLeft steps : Nat} {found found' : Constraints}
    (h : readBlock limit openLeft steps s found = .ok (found', e)) : s.issues <+: e.issues :=
  ((within_readBlock limit (Nat.le_max_left openLeft s.left) steps found
    (Nat.le_max_right openLeft s.left)).onward h).issues

theorem carries_readBlock (hmore : Ends more) (hlimit : limit.toNat ≤ limit'.toNat)
    (openLeft openLeft' steps steps' : Nat) (hsteps : steps ≤ steps') (found : Constraints) :
    Carries more (fun s => readBlock limit openLeft steps s found)
      (fun s => readBlock limit' openLeft' steps' s found) := by
  induction steps using Nat.strongRecOn generalizing steps' found with
  | ind steps ih =>
      intro s issues found' e h hclean _
      have hlong := hmore.skipBlanks_append s.rest
      rcases readBlock_clean h hclean with ⟨rest, hs, rfl, rfl⟩ |
        ⟨n, c, cs, found₁, s₁, rfl, hs, hbrace, hentry, hlater⟩
      · rw [hs] at hlong
        exact readBlock_closed limit' openLeft' steps' hlong issues found'
      · obtain ⟨steps', rfl⟩ : ∃ n, steps' = n + 1 := ⟨steps' - 1, by omega⟩
        have hfirst : s.issues <+: s₁.issues :=
          ((within_readConstraint limit found le_rfl).onward hentry).issues
        have hend := (onward_endConstraint (s := s₁) le_rfl).issues
        have hissues := issues_eq (hfirst.trans hend) (readBlock_issues hlater) hclean.symm
        have hissues₁ := issues_eq hfirst hend hissues
        -- the block goes on, so the entry does not reach the end of the text
        have hne : (endConstraint s₁).rest ≠ [] := by
          intro hnil
          rcases readBlock_clean hlater (hclean.trans hissues) with
            ⟨_, hs, -⟩ | ⟨_, _, _, _, _, -, hs, -⟩
          · rw [hnil] at hs
            cases hs
          · rw [hnil] at hs
            cases hs
        have hinside : Inside more s₁.rest := fun hnil =>
          absurd (List.suffix_nil.mp (hnil ▸ endConstraint_suffix s₁)) hne
        have hread := carries_readConstraint hmore hlimit found ⟨c :: cs, s.issues⟩ issues found₁ s₁
          hentry hissues₁.symm hinside
        rw [hs, List.cons_append] at hlong
        have hstep := TypeGrammar.readBlock_step limit' openLeft' steps' hlong hbrace issues found
        refine hstep.trans ?_
        refine bind_eq_ok.mpr ⟨_, hread, ?_⟩
        dsimp only
        rw [carries_endConstraint hmore issues (hissues.symm.trans hissues₁) hne]
        exact ih n (Nat.lt_succ_self n) steps' (Nat.le_of_succ_le_succ hsteps) found₁
          (endConstraint s₁) issues found' e hlater (hclean.trans hissues) trivial

/-! ### Types -/

theorem readSuffixes_done (limit : Int) (steps depth : Nat) (t : TypeExpr)
    (hmark : ∀ rest, Text.skipBlanks cs ≠ '?' :: rest)
    (hbrace : ∀ rest, Text.skipBlanks cs ≠ '\x7b' :: rest) (issues : List TypeIssue) :
    readSuffixes limit steps depth t ⟨cs, issues⟩ = .ok (t, ⟨Text.skipBlanks cs, issues⟩) := by
  rw [readSuffixes.eq_def]
  dsimp only [TypeCursor.skipBlanks]
  split
  · next rest _ heq => exact absurd heq (hmark rest)
  · next rest _ heq => exact absurd heq (hbrace rest)
  · rfl

theorem readSuffixes_issues {steps depth : Nat} {t t' : TypeExpr}
    (h : readSuffixes limit steps depth t s = .ok (t', e)) : s.issues <+: e.issues :=
  ((within_readSuffixes limit steps depth t le_rfl).onward h).issues

theorem carries_readSuffixes (hmore : Ends more) (hlimit : limit.toNat ≤ limit'.toNat)
    (steps steps' : Nat) {depth depth' : Nat} (hdepth : depth ≤ depth') {t t' : TypeExpr}
    (hleft : s.rest.length ≤ steps) (hsteps : steps ≤ steps')
    (h : readSuffixes limit steps depth t s = .ok (t', e)) (hclean : e.issues = s.issues)
    (issues : List TypeIssue) :
    readSuffixes limit' steps' depth' t ⟨s.rest ++ more, issues⟩ =
      .ok (t', ⟨e.rest ++ more, issues⟩) := by
  induction steps using Nat.strongRecOn generalizing steps' depth depth' t s with
  | ind steps ih =>
      have hlong := hmore.skipBlanks_append s.rest
      have hskip := (Text.skipBlanks_suffix s.rest).length_le.trans hleft
      rcases readSuffixes_ok h with ⟨n, d, rest, rfl, rfl, hs, hlater⟩ |
        ⟨n, rest, block, s₁, rfl, hs, hblock, hlater⟩ | ⟨rfl, rfl, hdone⟩
      · obtain ⟨steps', rfl⟩ : ∃ n, steps' = n + 1 := ⟨steps' - 1, by omega⟩
        obtain ⟨depth', rfl⟩ : ∃ n, depth' = n + 1 := ⟨depth' - 1, by omega⟩
        rw [hs, List.length_cons] at hskip
        rw [hs, List.cons_append] at hlong
        rw [readSuffixes.eq_def]
        simp only [TypeCursor.skipBlanks, hlong]
        exact ih n (Nat.lt_succ_self n) steps' (Nat.le_of_succ_le_succ hdepth)
          (s := ⟨rest, s.issues⟩) (Nat.le_of_succ_le_succ hskip) (Nat.le_of_succ_le_succ hsteps)
          hlater hclean
      · obtain ⟨steps', rfl⟩ : ∃ n, steps' = n + 1 := ⟨steps' - 1, by omega⟩
        rw [hs, List.length_cons] at hskip
        have hrest := (readBlock_suffix (s := ⟨rest, s.issues⟩) (Nat.le_succ _) hblock).length_le
        have hissues := issues_eq (readBlock_issues hblock) (readSuffixes_issues hlater) hclean.symm
        have hsame := carries_readBlock hmore hlimit (rest.length + 1)
          ((rest ++ more).length + 1) (rest.length + 1) ((rest ++ more).length + 1)
          (by rw [List.length_append]; omega) [] ⟨rest, s.issues⟩ issues block s₁ hblock
          hissues.symm trivial
        rw [hs, List.cons_append] at hlong
        rw [readSuffixes.eq_def]
        simp only [TypeCursor.skipBlanks, hlong]
        refine bind_eq_ok.mpr ⟨_, hsame, ?_⟩
        exact ih n (Nat.lt_succ_self n) steps' hdepth
          (hrest.trans (Nat.le_of_succ_le_succ hskip)) (Nat.le_of_succ_le_succ hsteps) hlater
          (hclean.trans hissues)
      · -- the steps are only used up where nothing is left
        have hpositive {c : Char} {rest : List Char} (hs : Text.skipBlanks s.rest = c :: rest) :
            0 < steps := by
          rw [hs, List.length_cons] at hskip
          exact (Nat.succ_pos _).trans_le hskip
        have hmark (rest : List Char) (hs : Text.skipBlanks s.rest = '?' :: rest) :=
          (hdone (hpositive hs)).1 rest hs
        have hbrace (rest : List Char) (hs : Text.skipBlanks s.rest = '\x7b' :: rest) :=
          (hdone (hpositive hs)).2 rest hs
        rw [TypeCursor.rest_skipBlanks, ← hlong]
        exact readSuffixes_done limit' steps' depth' t'
          (hlong ▸ fun _ => hmore.ne_cons (by decide) hmark)
          (hlong ▸ fun _ => hmore.ne_cons (by decide) hbrace) issues

theorem carries_expect (hmore : Ends more) {c : Char} {context : Expecting} (context' : Expecting)
    (h : expect c context s = .ok e) (issues : List TypeIssue) :
    expect c context' ⟨s.rest ++ more, issues⟩ = .ok ⟨e.rest ++ more, issues⟩ := by
  refine expect_eq_ok.mpr ⟨?_, rfl⟩
  rw [hmore.skipBlanks_append, (expect_eq_ok.mp h).1, List.cons_append]

theorem inside_of_expect {c : Char} {context : Expecting} (h : expect c context s = .ok e) :
    Inside more s.rest := inside_of_skipBlanks (expect_eq_ok.mp h).1

/-- No comma is put behind a list that ends within the text. -/
theorem Ends.no_comma (hmore : Ends more) {cs : List Char}
    (hcomma : ∀ rest, Text.skipBlanks cs ≠ ',' :: rest) (hinside : Inside more (Text.skipBlanks cs))
    (rest : List Char) : Text.skipBlanks (cs ++ more) ≠ ',' :: rest := by
  rw [hmore.skipBlanks_append]
  intro heq
  cases hcs : Text.skipBlanks cs with
  | nil =>
      rw [hinside hcs, hcs] at heq
      cases heq
  | cons c ds =>
      rw [hcs] at heq
      obtain ⟨rfl, -⟩ := List.cons.inj heq
      exact hcomma ds hcs

theorem Ends.cons_append (hmore : Ends more) {c : Char} {cs rest : List Char}
    (h : Text.skipBlanks cs = c :: rest) : Text.skipBlanks (cs ++ more) = c :: (rest ++ more) := by
  rw [hmore.skipBlanks_append, h, List.cons_append]

section Lists

variable {item item' : TypeReader TypeExpr} (hbounded : Bounded item)
  (hitem : Carries more item item')

include hbounded hitem

theorem carries_readArguments (hmore : Ends more) (steps steps' : Nat)
    (hleft : s.rest.length < steps) (hsteps : steps ≤ steps') {ts : List TypeExpr}
    (h : readArguments item steps s = .ok (ts, e)) (hclean : e.issues = s.issues)
    (hinside : Inside more e.rest) (issues : List TypeIssue) :
    readArguments item' steps' ⟨s.rest ++ more, issues⟩ = .ok (ts, ⟨e.rest ++ more, issues⟩) := by
  induction steps generalizing steps' s ts with
  | zero => omega
  | succ steps ih =>
      obtain ⟨steps', rfl⟩ : ∃ n, steps' = n + 1 := ⟨steps' - 1, by omega⟩
      obtain ⟨t, s₁, ht, hcases⟩ := readArguments_eq_ok.mp h
      have hfirst := hbounded.onward ht
      have hlater : s₁.issues <+: e.issues := by
        rcases hcases with ⟨_, -, _, hlater, -⟩ | ⟨-, -, rfl⟩
        · exact ((within_readArguments hbounded steps le_rfl).onward hlater).issues
        · exact List.prefix_refl _
      have hissues := issues_eq hfirst.issues hlater hclean.symm
      refine readArguments_eq_ok.mpr ⟨t, ⟨s₁.rest ++ more, issues⟩,
        hitem s issues t s₁ ht hissues.symm trivial, ?_⟩
      rcases hcases with ⟨rest, hcomma, ts', hlater, rfl⟩ | ⟨hcomma, rfl, rfl⟩
      · have hskip := ((Text.skipBlanks_suffix s₁.rest).trans hfirst.suffix).length_le
        rw [hcomma, List.length_cons] at hskip
        refine .inl ⟨rest ++ more, hmore.cons_append hcomma, ts', ?_, rfl⟩
        exact ih steps' (s := ⟨rest, s₁.issues⟩) (by dsimp only; omega)
          (Nat.le_of_succ_le_succ hsteps) hlater (hclean.trans hissues)
      · exact .inr ⟨hmore.no_comma hcomma hinside, rfl, (hmore.skipBlanks_cursor s₁ issues).symm⟩

theorem carries_readFields (hmore : Ends more) (steps steps' : Nat)
    (hleft : s.rest.length < steps) (hsteps : steps ≤ steps')
    {found fields : List (String × TypeExpr)} (h : readFields item steps found s = .ok (fields, e))
    (hclean : e.issues = s.issues) (hinside : Inside more e.rest) (issues : List TypeIssue) :
    readFields item' steps' found ⟨s.rest ++ more, issues⟩ =
      .ok (fields, ⟨e.rest ++ more, issues⟩) := by
  induction steps generalizing steps' s found with
  | zero => omega
  | succ steps ih =>
      obtain ⟨steps', rfl⟩ : ∃ n, steps' = n + 1 := ⟨steps' - 1, by omega⟩
      obtain ⟨name, rest, s₁, t, s₂, hne, hsplit, hcolon, ht, hhas, hcases⟩ := readFields_eq_ok.mp h
      have hname := TypeText.splitName_suffix (Text.skipBlanks s.rest)
      rw [hsplit] at hname
      have hbefore := ((expect_suffix hcolon).trans hname).trans (Text.skipBlanks_suffix s.rest)
      have hcolonIssues : s₁.issues = s.issues := (expect_eq_ok.mp hcolon).2
      have hfirst : s.issues <+: s₂.issues := hcolonIssues ▸ (hbounded.onward ht).issues
      have hlater : s₂.issues <+: e.issues := by
        rcases hcases with ⟨_, -, hlater⟩ | ⟨-, -, rfl⟩
        · exact ((within_readFields hbounded steps _ le_rfl).onward hlater).issues
        · exact List.prefix_refl _
      have hissues := issues_eq hfirst hlater hclean.symm
      refine readFields_eq_ok.mpr ⟨name, rest ++ more, ⟨s₁.rest ++ more, issues⟩, t,
        ⟨s₂.rest ++ more, issues⟩, hne, ?_, carries_expect hmore _ hcolon issues,
        hitem s₁ issues t s₂ ht (hissues.symm.trans hcolonIssues.symm) trivial, hhas, ?_⟩
      · rw [hmore.skipBlanks_append, hmore.splitName_append, hsplit]
      rcases hcases with ⟨tail, hcomma, hlater⟩ | ⟨hcomma, rfl, rfl⟩
      · have hskip := (((Text.skipBlanks_suffix s₂.rest).trans
          (hbounded.onward ht).suffix).trans hbefore).length_le
        rw [hcomma, List.length_cons] at hskip
        refine .inl ⟨tail ++ more, hmore.cons_append hcomma, ?_⟩
        exact ih steps' (s := ⟨tail, s₂.issues⟩) (by dsimp only; omega)
          (Nat.le_of_succ_le_succ hsteps) hlater (hclean.trans hissues)
      · exact .inr ⟨hmore.no_comma hcomma hinside, rfl, (hmore.skipBlanks_cursor s₂ issues).symm⟩

end Lists

theorem carries_quotedEnumValue {text : List Char} (hinside : Inside more rest) {quote : Char}
    {cs : List Char} {s s' : TypeCursor}
    (h : (match TypeText.splitQuoted quote cs with
      | (none, _) => faultAt s .unterminatedEnumText
      | (some text, rest) => .ok (text, rest)) = Except.ok (text, rest)) :
    (match TypeText.splitQuoted quote (cs ++ more) with
      | (none, _) => faultAt s' .unterminatedEnumText
      | (some text, rest) => .ok (text, rest)) = Except.ok (text, rest ++ more) := by
  have hsplit := @Inside.split _ more cs (TypeText.splitQuoted quote)
  split at h
  · cases h
  · next heq =>
      cases h
      rw [hsplit (heq ▸ hinside) fun hne => TypeText.splitQuoted_more hne more, heq]

theorem carries_readEnumValue {text : List Char} (h : readEnumValue s = .ok (text, rest))
    (hinside : Inside more rest) (issues : List TypeIssue) :
    readEnumValue ⟨s.rest ++ more, issues⟩ = .ok (text, rest ++ more) := by
  obtain ⟨cs, before⟩ := s
  by_cases hsingle : ∃ ds, cs = '\'' :: ds
  · obtain ⟨ds, rfl⟩ := hsingle
    exact carries_quotedEnumValue hinside h
  by_cases hdouble : ∃ ds, cs = '"' :: ds
  · obtain ⟨ds, rfl⟩ := hdouble
    exact carries_quotedEnumValue hinside h
  rw [not_exists] at hsingle hdouble
  rw [readEnumValue_unquoted hsingle hdouble] at h
  cases cs with
  | nil => cases h
  | cons c cs =>
      have hother {d : Char} (hd : ∀ ds, c :: cs ≠ d :: ds) (ds : List Char) :
          c :: cs ++ more ≠ d :: ds := by
        intro heq
        obtain ⟨rfl, -⟩ := List.cons.inj heq
        exact hd cs rfl
      have hsplit := @Inside.split _ more (c :: cs) (TypeText.splitBare isEnumStop 0)
      rw [readEnumValue_unquoted (hother hsingle) (hother hdouble)]
      dsimp only at h ⊢
      split at h
      · cases h
      · next hempty =>
          split at h
          · cases h
          · next hword =>
              cases h
              rw [hsplit hinside fun hne => TypeText.splitBare_more hne more]
              dsimp only
              rw [if_neg hempty, if_neg hword]

/-- A value that came up before is an issue. -/
theorem readEnumValues_clean {steps : Nat} {found values : List String}
    (h : readEnumValues (steps + 1) found s = .ok (values, e)) (hclean : e.issues = s.issues) :
    ∃ text rest, readEnumValue s.skipBlanks = .ok (text, rest) ∧
      found.contains (String.ofList text) = false ∧
      ((∃ tail, Text.skipBlanks rest = ',' :: tail ∧
        readEnumValues steps (found ++ [String.ofList text]) ⟨tail, s.issues⟩ = .ok (values, e)) ∨
      ((∀ tail, Text.skipBlanks rest ≠ ',' :: tail) ∧ values = found ++ [String.ofList text] ∧
        e = ⟨Text.skipBlanks rest, s.issues⟩)) := by
  obtain ⟨text, rest, found₁, issues₁, hvalue, htaken, hcases⟩ := readEnumValues_eq_ok.mp h
  have hlater : issues₁ <+: e.issues := by
    rcases hcases with ⟨tail, -, hlater⟩ | ⟨-, -, rfl⟩
    · exact ((within_readEnumValues steps found₁ (s := ⟨tail, issues₁⟩) le_rfl).onward hlater).issues
    · exact List.prefix_refl _
  rcases htaken with ⟨-, rfl, rfl⟩ | ⟨hnew, rfl, rfl⟩
  · have hnote := issues_note s.skipBlanks (.duplicateEnumValue (String.ofList text))
      s.skipBlanks.left
    exact absurd (issues_eq hnote hlater hclean.symm).symm (issues_ne_note _ _ _)
  · exact ⟨text, rest, hvalue, hnew, hcases⟩

theorem carries_readEnumValues (hmore : Ends more) (steps steps' : Nat)
    (hleft : s.rest.length < steps) (hsteps : steps ≤ steps') {found values : List String}
    (h : readEnumValues steps found s = .ok (values, e)) (hclean : e.issues = s.issues)
    (hinside : Inside more e.rest) (issues : List TypeIssue) :
    readEnumValues steps' found ⟨s.rest ++ more, issues⟩ =
      .ok (values, ⟨e.rest ++ more, issues⟩) := by
  induction steps generalizing steps' s found with
  | zero => omega
  | succ steps ih =>
      obtain ⟨steps', rfl⟩ : ∃ n, steps' = n + 1 := ⟨steps' - 1, by omega⟩
      obtain ⟨text, rest, hvalue, hknown, hcases⟩ := readEnumValues_clean h hclean
      have hbounded := ends_readEnumValue (s := s.skipBlanks) le_rfl
      rw [hvalue] at hbounded
      have hrest : rest <:+ s.rest := hbounded.trans (skipBlanks_suffix s)
      have hstays : Inside more rest := by
        rcases hcases with ⟨_, hcomma, -⟩ | ⟨-, -, rfl⟩
        · exact inside_of_skipBlanks hcomma
        · rintro rfl
          exact hinside rfl
      refine readEnumValues_eq_ok.mpr ⟨text, rest ++ more, _, issues, ?_, .inr ⟨hknown, rfl, rfl⟩, ?_⟩
      · rw [hmore.skipBlanks_cursor]
        exact carries_readEnumValue hvalue hstays issues
      rcases hcases with ⟨tail, hcomma, hlater⟩ | ⟨hcomma, rfl, rfl⟩
      · have hskip := ((Text.skipBlanks_suffix rest).trans hrest).length_le
        rw [hcomma, List.length_cons] at hskip
        refine .inl ⟨tail ++ more, hmore.cons_append hcomma, ?_⟩
        exact ih steps' (s := ⟨tail, s.issues⟩) (by dsimp only; omega)
          (Nat.le_of_succ_le_succ hsteps) hlater hclean
      · refine .inr ⟨hmore.no_comma hcomma hinside, rfl, ?_⟩
        rw [hmore.skipBlanks_append]

/-! ### Forms -/

section Composites

variable {item item' : TypeReader TypeExpr}

theorem left_append_le (s : TypeCursor) (more : List Char) :
    s.left + 1 ≤ (s.rest ++ more).length + 1 := by
  rw [List.length_append]
  exact Nat.succ_le_succ (Nat.le_add_right _ _)

theorem Contents.carries (hmore : Ends more) (hbounded : Bounded item)
    (hitem : Carries more item item') {composite : Composite} {t : TypeExpr}
    (h : Contents item s composite t e) (hclean : e.issues = s.issues)
    (hinside : Inside more e.rest) (issues : List TypeIssue) :
    Contents item' ⟨s.rest ++ more, issues⟩ composite t ⟨e.rest ++ more, issues⟩ := by
  cases h with
  | enum h =>
      exact .enum (carries_readEnumValues hmore _ _ (Nat.lt_succ_self _) (left_append_le s more) h
        hclean hinside issues)
  | reference hne h =>
      refine .reference hne ?_
      rw [hmore.skipBlanks_append, hmore.splitName_append, h]
  | noFields h =>
      rw [← hmore.skipBlanks_cursor]
      exact .noFields (hmore.cons_append h)
  | fields hne h =>
      refine .fields (fun rest heq => ?_) ?_
      · -- A field was read, so the bracket that may follow the text does not come first.
        obtain ⟨name, _, _, _, _, hname, hsplit, -⟩ := readFields_eq_ok.mp h
        rw [hmore.skipBlanks_append] at heq
        rw [TypeCursor.rest_skipBlanks, Text.skipBlanks_skipBlanks] at hsplit
        cases hcs : Text.skipBlanks s.rest with
        | nil =>
            rw [hcs] at hsplit
            exact hname (Prod.mk.inj hsplit).1.symm
        | cons c cs =>
            rw [hcs] at heq
            obtain ⟨rfl, -⟩ := List.cons.inj heq
            exact hne cs hcs
      · rw [hmore.skipBlanks_cursor]
        exact carries_readFields hbounded hitem hmore _ _ (Nat.lt_succ_self _)
          (left_append_le s.skipBlanks more) h hclean hinside issues
  | arguments h ht =>
      exact .arguments (carries_readArguments hbounded hitem hmore _ _ (Nat.lt_succ_self _)
        (left_append_le s more) h hclean hinside issues) ht

theorem carries_readComposite (name : String) (nameLeft nameLeft' : Nat) (hmore : Ends more)
    (hbounded : Bounded item) (hitem : Carries more item item') (composite : Composite) :
    Carries more (readComposite item composite name nameLeft)
      (readComposite item' composite name nameLeft') := by
  intro s issues t e h hclean _
  obtain ⟨s₁, hcontents, hclose⟩ := contents_of_readComposite h
  have hissues := (expect_eq_ok.mp hclose).2.symm.trans hclean
  exact (hcontents.carries hmore hbounded hitem hissues (inside_of_expect hclose)
    issues).readComposite (carries_expect hmore _ hclose issues)

end Composites

theorem carries_readForm (hmore : Ends more) {item item' : TypeReader TypeExpr}
    (hbounded : Bounded item) (hitem : Carries more item item') :
    Carries more (readForm item) (readForm item') := by
  intro s issues t e h hclean _
  obtain ⟨name, rest, hne, hsplit, hcases⟩ := readForm_ok h
  have hlong : TypeText.splitName (Text.skipBlanks (s.rest ++ more)) = (name, rest ++ more) := by
    rw [hmore.skipBlanks_append, hmore.splitName_append, hsplit]
  rcases hcases with ⟨inner, composite, hbracket, hkeyword, hread⟩ | ⟨hbracket, halone⟩
  · rw [readForm_brackets (s := ⟨s.rest ++ more, issues⟩) hne hlong (hmore.cons_append hbracket),
      hkeyword]
    exact carries_readComposite _ _ _ hmore hbounded hitem composite ⟨inner, s.issues⟩ issues t e
      hread hclean trivial
  · have hopen (inner : List Char) : Text.skipBlanks (rest ++ more) ≠ '[' :: inner := by
      rw [hmore.skipBlanks_append]
      exact hmore.ne_cons (by decide) hbracket
    rw [readForm_plain (s := ⟨s.rest ++ more, issues⟩) hne hlong hopen, hmore.skipBlanks_append]
    obtain ⟨rfl, ⟨hkeyword, rfl⟩ | ⟨hkeyword, rfl⟩⟩ := readAlone_ok halone
    · rw [readAlone, hkeyword]
    · rw [readAlone, hkeyword]

theorem carries_readType (hmore : Ends more) (hlimit : limit.toNat ≤ limit'.toNat)
    {levels levels' : Nat} (hlevels : levels ≤ levels') :
    Carries more (readType limit levels) (readType limit' levels') := by
  induction levels generalizing levels' with
  | zero =>
      intro s issues t e h
      cases h
  | succ levels ih =>
      obtain ⟨levels', rfl⟩ : ∃ n, levels' = n + 1 := ⟨levels' - 1, by omega⟩
      have hlevels := Nat.le_of_succ_le_succ hlevels
      have hitem := bounded_readType limit levels
      intro s issues t e h hclean _
      rw [readType] at h ⊢
      obtain ⟨⟨form, s₁⟩, hform, h⟩ := bind_eq_ok.mp h
      have hissues := issues_eq ((bounded_readForm hitem).onward hform).issues
        (readSuffixes_issues h) hclean.symm
      have hlength : s₁.left ≤ (s₁.rest ++ more).length := by
        rw [List.length_append]
        exact Nat.le_add_right _ _
      refine bind_eq_ok.mpr ⟨_, carries_readForm hmore hitem (ih hlevels) s issues form s₁ hform
        hissues.symm trivial, ?_⟩
      exact carries_readSuffixes hmore hlimit _ _ hlevels le_rfl hlength h (hclean.trans hissues)
        issues

/-! ### Whole texts -/

theorem readTrailing_clean {issues : List TypeIssue} (h : readTrailing cs issues = .ok []) :
    Text.skipBlanks cs = [] ∧ issues = [] := by
  refine ⟨?_, List.prefix_nil.mp (readTrailing_keeps h)⟩
  induction cs with
  | nil => rfl
  | cons c cs ih =>
      rw [readTrailing] at h
      split at h
      · next hblank =>
          rw [Text.skipBlanks, List.dropWhile_cons, if_pos hblank]
          exact ih h
      · split at h
        · have hnil := List.prefix_nil.mp (readTrailing_keeps h)
          exact absurd hnil (by simp)
        · cases h

/-- A text that is read without an issue on its own is read to the same type inside a longer one. -/
theorem readType_of_readWhole (hmore : Ends more) (hlimit : limit ≤ limit') {levels : Nat}
    (hlevels : (limit + 1).toNat ≤ levels) {t : TypeExpr} (h : readWhole limit cs = .ok (t, []))
    (issues : List TypeIssue) :
    ∃ rest, Text.skipBlanks rest = [] ∧
      readType limit' levels ⟨cs ++ more, issues⟩ = .ok (t, ⟨rest ++ more, issues⟩) := by
  unfold readWhole at h
  dsimp only at h
  split at h
  · cases h
  · obtain ⟨⟨t', e⟩, hread, h⟩ := bind_eq_ok.mp h
    obtain ⟨issues', htrailing, h⟩ := bind_eq_ok.mp h
    cases h
    obtain ⟨hblank, hclean⟩ := readTrailing_clean htrailing
    have hcarries : Carries more (readType limit (limit + 1).toNat) (readType limit' levels) :=
      carries_readType hmore (Int.toNat_le_toNat hlimit) hlevels
    have hlong := hcarries _ issues _ _ hread hclean trivial
    refine ⟨e.rest, hblank, ?_⟩
    cases levels with
    | zero => cases hlong
    | succ levels =>
        dsimp only at hlong
        rwa [← hmore.skipBlanks_append, readType, TypeGrammar.readForm_skipBlanks,
          ← readType] at hlong

end TypeExpr

end AppSpec
