import AppSpec.Proofs.TypeExpr.Literal

/-!
Printed literals, read back. A literal that keeps its texts and numbers comes back as itself, and
only such a one comes back as its equal.
-/

namespace AppSpec

open TypeText (AllAtoms StopHead)
open TypeExpr

namespace Value

theorem areLiterals_iff {levels : Nat} {items : List Value} :
    AreLiterals levels items ↔ ∀ item ∈ items, item.IsLiteral levels := by
  induction items with
  | nil => simp [AreLiterals]
  | cons item items ih => simp [AreLiterals, ih]

theorem areFaithful_iff {items : List Value} :
    AreFaithful items ↔ ∀ item ∈ items, item.Faithful := by
  induction items with
  | nil => simp [AreFaithful]
  | cons item items ih => simp [AreFaithful, ih]

end Value

namespace Literal

/-! ### Scalars -/

theorem allAtoms_of_isBareWord {cs : List Char} (h : isBareWord cs = true) :
    AllAtoms cs ∧ cs ≠ [] := by
  cases cs with
  | nil => cases h
  | cons c cs =>
      rw [isBareWord, Bool.and_eq_true, List.all_eq_true] at h
      have hc : isWordChar c = true := by
        rw [isWordChar, h.1]
        rfl
      exact ⟨.cons (TypeText.isAtom_of_isWordChar hc)
        (fun d hd => TypeText.isAtom_of_isWordChar (h.2 d hd)), by simp⟩

theorem read_wordLine {cs : List Char} (h : IsWordLine cs) :
    read cs = .ok (some (.str (String.ofList cs))) := by
  obtain ⟨word, rfl, hbare, hint, hreal⟩ := h
  have hup := upToLineEnd_lineFeed word
  rw [read_text (keyword?_lineFeed word) (by rw [hup]; exact hint) (by rw [hup]; exact hreal), hup,
    if_pos hbare]

theorem not_long_of_read {cs : List Char} {r : Option Scalar} (h : read cs = .ok r) :
    ¬ IsLongInteger cs := by
  intro hlong
  rw [read_long hlong] at h
  cases h

theorem read_word_of_wordLine {word : List Char} (h : IsWordLine (word ++ ['\n'])) :
    ∃ r, read word = .ok (some r) ∧
      Scalar.same (.str (String.ofList (word ++ ['\n']))) r = false := by
  obtain ⟨word', heq, hbare, hint, hreal⟩ := h
  obtain rfl : word = word' := List.append_cancel_right heq
  have hup := upToLineEnd_atoms (allAtoms_of_isBareWord hbare).1
  cases hk : keyword? word with
  | some k =>
      refine ⟨k, by simp only [read, hk], ?_⟩
      cases k with
      | str s => exact absurd hk keyword?_ne_str
      | _ => rfl
  | none =>
      refine ⟨.str (String.ofList word), ?_, ?_⟩
      · rw [read_text hk (by rw [hup]; exact hint) (by rw [hup]; exact hreal), hup, if_pos hbare]
      · rw [Scalar.same_str, beq_eq_false_iff_ne]
        intro h
        have := congrArg (fun s => s.toList.length) h
        simp at this

theorem same_float_str (x : Float) (t : String) :
    Scalar.same (.float x) (.str t) = false := by
  have hnone : Scalar.toInt? (.str t) = none := rfl
  simp only [Scalar.same, hnone]
  split
  · next h => cases h
  · rfl

structure Bare (s : Scalar) (cs : List Char) (r : Option Scalar) : Prop where
  atoms : AllAtoms cs
  nonempty : cs ≠ []
  read : read cs = .ok r
  faithful : s.Faithful → r = some s
  of_same : ∀ s', r = some s' → s.same s' = true → s.Faithful

theorem writeText_cases {s : String} {cs : List Char} (h : writeText s = .ok cs) :
    (cs = quote s.toList ∧ (Scalar.str s).Faithful) ∨
      ∃ word tail r, cs = word ++ tail ∧ (∀ c ∈ tail, c = '\n') ∧ Bare (.str s) word r := by
  cases hread : read s.toList with
  | error f =>
      rw [writeText, hread] at h
      cases h
  | ok r =>
      have hlong := not_long_of_read hread
      simp only [writeText, hread] at h
      by_cases hstr : ∃ t, r = some (.str t)
      · obtain ⟨t, rfl⟩ := hstr
        cases h
        right
        obtain ⟨hk, hint, hreal, hbare, rfl⟩ := read_eq_str hread
        rcases upToLineEnd_cases s.toList with ⟨word, hs, hup⟩ | ⟨hup, hs⟩
        · rw [hup] at hint hreal hbare
          have hline : IsWordLine s.toList := ⟨word, hs, hbare, hint, hreal⟩
          obtain ⟨r, hr, hsame⟩ := read_word_of_wordLine (hs ▸ hline)
          rw [← hs, String.ofList_toList] at hsame
          obtain ⟨hatoms, hne⟩ := allAtoms_of_isBareWord hbare
          refine ⟨word, ['\n'], some r, hs, by simp, hatoms, hne, hr, fun hf => absurd hline hf.1, ?_⟩
          intro s' hs' hsame'
          cases hs'
          rw [hsame] at hsame'
          cases hsame'
        · rw [hup] at hbare
          obtain ⟨hatoms, hne⟩ := allAtoms_of_isBareWord hbare
          refine ⟨s.toList, [], _, (List.append_nil _).symm, by simp, hatoms, hne, hread, ?_, ?_⟩
          · intro _
            rw [String.ofList_toList]
          · intro _ _ _
            exact ⟨fun ⟨word, hword, _⟩ => hs word hword, hlong⟩
      · left
        have hquote : cs = quote s.toList := by
          cases r with
          | none => cases h; rfl
          | some v =>
              cases v with
              | str t => exact absurd ⟨t, rfl⟩ hstr
              | _ => cases h; rfl
        refine ⟨hquote, fun hline => ?_, hlong⟩
        rw [read_wordLine hline] at hread
        cases hread
        exact hstr ⟨_, rfl⟩

theorem write_scalar_cases {s : Scalar} {cs : List Char} (hs : s.IsLiteral)
    (h : write (.scalar s) = .ok cs) :
    (∃ t, s = .str t ∧ cs = quote t.toList ∧ s.Faithful) ∨
      ∃ word tail r, cs = word ++ tail ∧ (∀ c ∈ tail, c = '\n') ∧ Bare s word r := by
  have keep {word : List Char} (hword : AllAtoms word) (hne : word ≠ [])
      (hread : read word = .ok (some s)) (hfaithful : s.Faithful) (heq : cs = word) :
      ∃ word tail r, cs = word ++ tail ∧ (∀ c ∈ tail, c = '\n') ∧ Bare s word r :=
    ⟨word, [], _, by rw [heq, List.append_nil], by simp, hword, hne, hread, fun _ => rfl,
      fun _ _ _ => hfaithful⟩
  have hword (cs : List Char) (h : cs.all TypeText.isAtom = true) : AllAtoms cs :=
    List.all_eq_true.mp h
  cases s with
  | null =>
      cases h
      exact .inr (keep (hword _ (by decide)) (by simp) rfl trivial rfl)
  | bool b =>
      cases b with
      | true =>
          cases h
          exact .inr (keep (hword _ (by decide)) (by simp) rfl trivial rfl)
      | false =>
          cases h
          exact .inr (keep (hword _ (by decide)) (by simp) rfl trivial rfl)
  | int n =>
      have hcs : cs = (toString n).toList := by
        have hn : Text.integerTooLong n = false := hs
        simp only [write, writeInt, hn, Bool.false_eq_true, if_false] at h
        cases h
        rfl
      have hatoms : AllAtoms (toString n).toList := by
        rw [toString_toList]
        exact (allAtoms_signText _).append
          (TypeText.allAtoms_of_allDigits (Text.allDigits_toDigits _))
      have hne : (toString n).toList ≠ [] := by
        rw [toString_toList]
        simp
      exact .inr (keep hatoms hne (read_int hs) trivial hcs)
  | float x =>
      cases h
      have hatoms := allAtoms_floatText x
      by_cases hx : Decimal.IsFinite x
      · have hread := read_float hx
        have hne : (Decimal.floatText x).toList ≠ [] := by
          intro hnil
          rw [hnil] at hread
          cases hread
        exact .inr (keep hatoms hne hread hx rfl)
      · obtain ⟨hne, r, hread, hstr⟩ := read_not_finite hx
        refine .inr ⟨_, [], r, (List.append_nil _).symm, by simp, hatoms, hne, hread,
          fun hf => absurd hf hx, ?_⟩
        intro s' hs' hsame
        obtain ⟨t, rfl⟩ := hstr s' hs'
        rw [same_float_str] at hsame
        cases hsame
  | str s =>
      rcases writeText_cases h with ⟨hquote, hfaithful⟩ | hbare
      · exact .inl ⟨s, rfl, hquote, hfaithful⟩
      · exact .inr hbare
  | date d => exact absurd hs id
  | timestamp t => exact absurd hs id
  | bytes bs => exact absurd hs id

/-! ### Cutting out -/

theorem isLiteralStop_of_isAtom {c : Char} (h : TypeText.isAtom c = true) :
    isLiteralStop c = false := by
  simp only [isLiteralStop, Bool.or_eq_false_iff, beq_eq_false_iff_ne]
  exact ⟨⟨TypeText.ne_of_isAtom h (by decide), TypeText.ne_of_isAtom h (by decide)⟩,
    TypeText.ne_of_isAtom h (by decide)⟩

theorem readLiteralWith_bare {list : LiteralReader} {word tail rest : List Char}
    (hword : AllAtoms word) (hne : word ≠ []) (htail : ∀ c ∈ tail, c = '\n')
    (hrest : StopHead isLiteralStop rest) :
    readLiteralWith list (word ++ tail ++ rest) =
      match Literal.read word with
      | .ok value => .ok (value.map .scalar, rest)
      | .error failure => .error (.failure failure) := by
  obtain ⟨hsplit, htrim⟩ :=
    TypeText.splitBare_word (fun _ => isLiteralStop_of_isAtom) (by decide) hword hne htail hrest
  cases word with
  | nil => exact absurd rfl hne
  | cons c word =>
      have hatom := hword c (by simp)
      have hne (d : Char) (hd : TypeText.isAtom d = false) : c ≠ d :=
        TypeText.ne_of_isAtom hatom hd
      unfold readLiteralWith
      split
      · next heq => exact absurd (List.cons.inj heq).1 (hne _ (by decide))
      · next heq => exact absurd (List.cons.inj heq).1 (hne _ (by decide))
      · next heq => exact absurd (List.cons.inj heq).1 (hne _ (by decide))
      · cases hread : Literal.read (c :: word) <;> simp only [hsplit, htrim, hread]

theorem readLiteralWith_quote {list : LiteralReader} (cs rest : List Char) :
    readLiteralWith list (quote cs ++ rest) = .ok (some (.str (String.ofList cs)), rest) := by
  have hsplit := TypeText.splitQuoted_flatMap cs rest
  rw [quote, List.cons_append, List.append_assoc, List.singleton_append]
  simp only [readLiteralWith, hsplit, Option.map_some]
  rfl

theorem readLiteralWith_scalar (list : LiteralReader) {s : Scalar} {cs rest : List Char}
    (hs : s.IsLiteral) (hw : write (.scalar s) = .ok cs) (hrest : StopHead isLiteralStop rest) :
    ∃ r : Option Scalar, readLiteralWith list (cs ++ rest) = .ok (r.map .scalar, rest) ∧
      (s.Faithful → r = some s) ∧ ∀ s', r = some s' → s.same s' = true → s.Faithful := by
  rcases write_scalar_cases hs hw with ⟨t, rfl, rfl, hfaithful⟩ | ⟨word, tail, r, rfl, htail, hbare⟩
  · refine ⟨some (.str t), ?_, fun _ => rfl, fun _ _ _ => hfaithful⟩
    rw [readLiteralWith_quote, String.ofList_toList]
    rfl
  · refine ⟨r, ?_, hbare.faithful, hbare.of_same⟩
    rw [readLiteralWith_bare hbare.atoms hbare.nonempty htail hrest, hbare.read]

/-! ### Lists -/

theorem write_head {levels : Nat} {v : Value} {cs : List Char} (hv : v.IsLiteral levels)
    (hw : write v = .ok cs) :
    ∃ c rest, cs = c :: rest ∧ Text.isBlank c = false ∧ c ≠ ']' := by
  cases v with
  | scalar s =>
      rcases write_scalar_cases hv hw with ⟨t, -, rfl, -⟩ | ⟨word, tail, r, rfl, -, hbare⟩
      · exact ⟨_, _, rfl, by decide, by decide⟩
      · cases word with
        | nil => exact absurd rfl hbare.nonempty
        | cons c word =>
            have hatom := hbare.atoms c (by simp)
            exact ⟨_, _, rfl, TypeText.isBlank_of_isAtom hatom,
              TypeText.ne_of_isAtom hatom (by decide)⟩
  | list items =>
      rw [write] at hw
      cases hitems : writeItems items with
      | error f =>
          rw [hitems] at hw
          cases hw
      | ok texts =>
          rw [hitems] at hw
          cases hw
          exact ⟨_, _, rfl, by decide, by decide⟩
  | tuple items => exact absurd hv id
  | set items => exact absurd hv id
  | dict entries => exact absurd hv id

theorem write_list {items : List Value} {cs : List Char} (h : write (.list items) = .ok cs) :
    ∃ texts, writeItems items = .ok texts ∧ cs = '[' :: (separated texts ++ [']']) := by
  rw [write] at h
  cases hitems : writeItems items with
  | error f =>
      rw [hitems] at h
      cases h
  | ok texts =>
      rw [hitems] at h
      cases h
      exact ⟨texts, rfl, rfl⟩

theorem writeItems_cons {item : Value} {items : List Value} {texts : List (List Char)}
    (h : writeItems (item :: items) = .ok texts) :
    ∃ text rest, write item = .ok text ∧ writeItems items = .ok rest ∧ texts = text :: rest := by
  rw [writeItems] at h
  cases hitem : write item with
  | error f =>
      rw [hitem] at h
      cases h
  | ok text =>
      rw [hitem] at h
      cases hitems : writeItems items with
      | error f =>
          rw [hitems] at h
          cases h
      | ok rest =>
          rw [hitems] at h
          cases h
          exact ⟨text, rest, rfl, rfl, rfl⟩

structure Rereads (read : LiteralReader) (v : Value) (text rest : List Char) : Prop where
  exact : v.Faithful → read (text ++ rest) = .ok (some v, rest)
  clean : ∀ v' rest', read (text ++ rest) = .ok (some v', rest') →
    rest' = rest ∧ (v.same v' = true → v.Faithful)

def RereadsItem (read : LiteralReader) (v : Value) : Prop :=
  ∀ text rest, write v = .ok text → StopHead isLiteralStop rest → Rereads read v text rest

theorem stopHead_comma (rest : List Char) : StopHead isLiteralStop (',' :: rest) :=
  ⟨_, _, rfl, by decide, by decide, by decide⟩

theorem stopHead_bracket (rest : List Char) : StopHead isLiteralStop (']' :: rest) :=
  ⟨_, _, rfl, by decide, by decide, by decide⟩

theorem stopHead_brace (rest : List Char) : StopHead isLiteralStop ('\x7d' :: rest) :=
  ⟨_, _, rfl, by decide, by decide, by decide⟩

theorem readItems_space (item : LiteralReader) (steps : Nat) (cs : List Char) :
    readItems item (steps + 1) (' ' :: cs) = readItems item (steps + 1) cs := by
  rw [readItems, readItems, TypeText.skipBlanks_space]

theorem readItems_last {item : LiteralReader} {cs rest : List Char} {value : Value}
    (steps : Nat) (h : item (Text.skipBlanks cs) = .ok (some value, ']' :: rest)) :
    readItems item (steps + 1) cs = .ok (some [value], rest) := by
  rw [readItems, h]
  rfl

theorem readItems_comma {item : LiteralReader} {cs rest : List Char} {value : Value}
    (steps : Nat) (h : item (Text.skipBlanks cs) = .ok (some value, ',' :: rest)) :
    readItems item (steps + 1) cs =
      (readItems item steps rest).map fun r => (r.1.map (value :: ·), r.2) := by
  rw [readItems, h]
  show (readItems item steps rest >>= _) = _
  cases readItems item steps rest <;> rfl

theorem readItems_some {item : LiteralReader} {steps : Nat} {cs rest' : List Char}
    {items : List Value} (h : readItems item steps cs = .ok (some items, rest')) :
    ∃ n value after, steps = n + 1 ∧ item (Text.skipBlanks cs) = .ok (some value, after) ∧
      ((Text.skipBlanks after = ']' :: rest' ∧ items = [value]) ∨
        ∃ rest values, Text.skipBlanks after = ',' :: rest ∧
          readItems item n rest = .ok (some values, rest') ∧ items = value :: values) := by
  cases steps with
  | zero => cases h
  | succ n =>
      rw [readItems] at h
      cases hitem : item (Text.skipBlanks cs) with
      | error stop =>
          rw [hitem] at h
          cases h
      | ok r =>
          obtain ⟨value, after⟩ := r
          rw [hitem] at h
          cases value with
          | none => cases h
          | some value =>
              refine ⟨n, value, after, rfl, rfl, ?_⟩
              dsimp only [bind, Except.bind] at h
              split at h
              · next rest heq =>
                  cases hrest : readItems item n rest with
                  | error stop =>
                      rw [hrest] at h
                      cases h
                  | ok r =>
                      obtain ⟨values, last⟩ := r
                      rw [hrest] at h
                      cases values with
                      | none => cases h
                      | some values =>
                          cases h
                          exact .inr ⟨rest, values, heq, hrest, rfl⟩
              · next rest heq =>
                  cases h
                  exact .inl ⟨heq, rfl⟩
              · cases h

structure RereadsItems (read : LiteralReader) (items : List Value) (steps : Nat)
    (text rest : List Char) : Prop where
  exact : Value.AreFaithful items →
    readItems read steps (text ++ ']' :: rest) = .ok (some items, rest)
  clean : ∀ items' rest', readItems read steps (text ++ ']' :: rest) = .ok (some items', rest') →
    rest' = rest ∧ (Value.sameItems items items' = true → Value.AreFaithful items)

theorem separated_cons (text second : List Char) (texts : List (List Char)) (rest : List Char) :
    separated (text :: second :: texts) ++ rest =
      text ++ ',' :: ' ' :: (separated (second :: texts) ++ rest) := by
  rw [separated, List.append_assoc]
  · rfl
  · simp

theorem skipBlanks_text {levels : Nat} {v : Value} {text : List Char} (hv : v.IsLiteral levels)
    (hw : write v = .ok text) (rest : List Char) :
    Text.skipBlanks (text ++ rest) = text ++ rest := by
  obtain ⟨c, text, rfl, hblank, -⟩ := write_head hv hw
  exact TypeText.skipBlanks_cons hblank _

theorem rereadsItems {read : LiteralReader} {levels : Nat} {items : List Value}
    {texts : List (List Char)} (steps : Nat) (rest : List Char) (hne : items ≠ [])
    (hliteral : Value.AreLiterals levels items) (hw : writeItems items = .ok texts)
    (hitem : ∀ item ∈ items, RereadsItem read item) (hsteps : items.length ≤ steps) :
    RereadsItems read items steps (separated texts) rest := by
  induction items generalizing texts steps with
  | nil => exact absurd rfl hne
  | cons item items ih =>
      obtain ⟨text, texts, htext, htexts, rfl⟩ := writeItems_cons hw
      obtain ⟨steps, rfl⟩ : ∃ n, steps = n + 1 := ⟨steps - 1, by simp at hsteps; omega⟩
      cases items with
      | nil =>
          cases htexts
          have hread := hitem item (by simp) _ (']' :: rest) htext (stopHead_bracket rest)
          have hskip := skipBlanks_text hliteral.1 htext (']' :: rest)
          constructor
          · intro hfaithful
            exact readItems_last _ ((congrArg read hskip).trans (hread.exact hfaithful.1))
          · intro items' rest' h
            obtain ⟨n, value, after, hn, hvalue, hcases⟩ := readItems_some h
            obtain ⟨rfl, hsame⟩ := hread.clean _ _ ((congrArg read hskip).symm.trans hvalue)
            rcases hcases with ⟨hafter, rfl⟩ | ⟨_, _, hafter, -, -⟩
            · cases hafter
              refine ⟨rfl, fun hitems => ⟨hsame ?_, trivial⟩⟩
              simpa [Value.sameItems] using hitems
            · cases hafter
      | cons second items =>
          have hlater := ih steps (by simp) hliteral.2 htexts (fun v hv => hitem v (by simp [hv]))
            (by simpa using hsteps)
          obtain ⟨steps, rfl⟩ : ∃ n, steps = n + 1 := ⟨steps - 1, by simp at hsteps; omega⟩
          obtain ⟨text₂, texts, -, -, rfl⟩ := writeItems_cons htexts
          have hread := hitem item (by simp) _
            (',' :: ' ' :: (separated (text₂ :: texts) ++ ']' :: rest)) htext (stopHead_comma _)
          have hskip := skipBlanks_text hliteral.1 htext
            (',' :: ' ' :: (separated (text₂ :: texts) ++ ']' :: rest))
          constructor
          · intro hfaithful
            rw [separated_cons, readItems_comma _ ((congrArg read hskip).trans (hread.exact hfaithful.1)),
              readItems_space, hlater.exact hfaithful.2]
            rfl
          · intro items' rest' h
            rw [separated_cons] at h
            obtain ⟨n, value, after, hn, hvalue, hcases⟩ := readItems_some h
            obtain ⟨rfl, hsame⟩ := hread.clean _ _ ((congrArg read hskip).symm.trans hvalue)
            rcases hcases with ⟨hafter, -⟩ | ⟨_, values, hafter, hvalues, rfl⟩
            · cases hafter
            · cases hafter
              cases hn
              rw [readItems_space] at hvalues
              obtain ⟨rfl, hsames⟩ := hlater.clean _ _ hvalues
              refine ⟨rfl, fun hitems => ?_⟩
              rw [Value.sameItems, Bool.and_eq_true] at hitems
              exact ⟨hsame hitems.1, hsames hitems.2⟩

theorem readList_empty (item : LiteralReader) (rest : List Char) :
    readList item (']' :: rest) = .ok (some (.list []), rest) := rfl

theorem readList_items {item : LiteralReader} {c : Char} {cs : List Char}
    (hblank : Text.isBlank c = false) (hc : c ≠ ']') :
    readList item (c :: cs) =
      (readItems item ((c :: cs).length + 1) (c :: cs)).map fun r => (r.1.map .list, r.2) := by
  unfold readList
  rw [TypeText.skipBlanks_cons hblank]
  split
  · next heq => exact absurd (List.cons.inj heq).1 hc
  · show (readItems item _ _ >>= _) = _
    cases readItems item ((c :: cs).length + 1) (c :: cs) <;> rfl

theorem length_le_separated {texts : List (List Char)} (h : ∀ text ∈ texts, text ≠ []) :
    texts.length ≤ (separated texts).length := by
  induction texts with
  | nil => exact Nat.zero_le _
  | cons text texts ih =>
      have hpos := List.length_pos_iff.mpr (h text (by simp))
      have ih := ih fun t ht => h t (by simp [ht])
      cases texts with
      | nil => exact hpos
      | cons second texts =>
          rw [← List.append_nil (separated _), separated_cons, List.append_nil]
          simp only [List.length_cons, List.length_append] at ih ⊢
          omega

theorem writeItems_length {items : List Value} {texts : List (List Char)} {levels : Nat}
    (hliteral : Value.AreLiterals levels items) (hw : writeItems items = .ok texts) :
    texts.length = items.length ∧ ∀ text ∈ texts, text ≠ [] := by
  induction items generalizing texts with
  | nil =>
      cases hw
      simp
  | cons item items ih =>
      obtain ⟨text, texts, htext, htexts, rfl⟩ := writeItems_cons hw
      obtain ⟨c, text, rfl, -, -⟩ := write_head hliteral.1 htext
      obtain ⟨hlength, hne⟩ := ih hliteral.2 htexts
      exact ⟨by rw [List.length_cons, hlength, List.length_cons],
        List.forall_mem_cons.mpr ⟨by simp, hne⟩⟩

structure RereadsList (read : LiteralReader) (items : List Value) (text rest : List Char) :
    Prop where
  exact : Value.AreFaithful items →
    readList read (text ++ ']' :: rest) = .ok (some (.list items), rest)
  clean : ∀ v rest', readList read (text ++ ']' :: rest) = .ok (some v, rest') →
    rest' = rest ∧ ((Value.list items).same v = true → Value.AreFaithful items)

theorem rereadsList {read : LiteralReader} {levels : Nat} {items : List Value}
    {texts : List (List Char)} (rest : List Char) (hliteral : Value.AreLiterals levels items)
    (hw : writeItems items = .ok texts) (hitem : ∀ item ∈ items, RereadsItem read item) :
    RereadsList read items (separated texts) rest := by
  cases items with
  | nil =>
      cases hw
      refine ⟨fun _ => readList_empty read rest, fun v rest' h => ?_⟩
      cases (readList_empty read rest).symm.trans h
      exact ⟨rfl, fun _ => trivial⟩
  | cons item items =>
      obtain ⟨hlength, hne⟩ := writeItems_length hliteral hw
      have hle := length_le_separated hne
      have hitems := rereadsItems ((separated texts ++ ']' :: rest).length + 1) rest
        (by simp) hliteral hw hitem (by rw [List.length_append, ← hlength]; omega)
      obtain ⟨text, texts, htext, htexts, rfl⟩ := writeItems_cons hw
      have hhead : ∃ c cs, separated (text :: texts) ++ ']' :: rest = c :: cs ∧
          Text.isBlank c = false ∧ c ≠ ']' := by
        obtain ⟨c, text, rfl, hblank, hc⟩ := write_head hliteral.1 htext
        cases texts with
        | nil => exact ⟨c, _, rfl, hblank, hc⟩
        | cons second texts => exact ⟨c, _, rfl, hblank, hc⟩
      obtain ⟨c, cs, heq, hblank, hc⟩ := hhead
      have hlist : readList read (separated (text :: texts) ++ ']' :: rest) =
          (readItems read ((separated (text :: texts) ++ ']' :: rest).length + 1)
            (separated (text :: texts) ++ ']' :: rest)).map fun r => (r.1.map .list, r.2) := by
        rw [heq]
        exact readList_items hblank hc
      constructor
      · intro hfaithful
        rw [hlist, hitems.exact hfaithful]
        rfl
      · intro v rest' h
        rw [hlist] at h
        cases hresult : readItems read ((separated (text :: texts) ++ ']' :: rest).length + 1)
            (separated (text :: texts) ++ ']' :: rest) with
        | error stop =>
            rw [hresult] at h
            cases h
        | ok r =>
            obtain ⟨values, last⟩ := r
            rw [hresult] at h
            cases values with
            | none => cases h
            | some values =>
                obtain ⟨rfl, hsame⟩ := hitems.clean _ _ hresult
                cases h
                refine ⟨rfl, fun h => hsame ?_⟩
                rwa [Value.same] at h

theorem rereadsItem (limit : Int) : ∀ (v : Value) (levels : Nat), v.IsLiteral levels →
    RereadsItem (readLiteral limit levels) v
  | .scalar s, levels, hv => by
      intro text rest hw hrest
      have hread : ∃ list, readLiteral limit levels = readLiteralWith list := by
        cases levels <;> exact ⟨_, rfl⟩
      obtain ⟨list, hlist⟩ := hread
      obtain ⟨r, hr, hexact, hclean⟩ := readLiteralWith_scalar list hv hw hrest
      rw [hlist]
      constructor
      · intro hfaithful
        rw [hr, hexact hfaithful]
        rfl
      · intro v' rest' h
        rw [hr] at h
        cases r with
        | none => cases h
        | some s' =>
            cases h
            exact ⟨rfl, fun hsame => hclean s' rfl hsame⟩
  | .list items, levels, hv => by
      intro text rest hw hrest
      obtain ⟨levels, rfl, hitems⟩ := hv
      obtain ⟨texts, htexts, rfl⟩ := write_list hw
      have ih : ∀ item ∈ items, RereadsItem (readLiteral limit levels) item := fun item hitem =>
        rereadsItem limit item levels (Value.areLiterals_iff.mp hitems item hitem)
      have hlist := rereadsList rest hitems htexts ih
      have hread : readLiteral limit (levels + 1) ('[' :: (separated texts ++ [']']) ++ rest) =
          readList (readLiteral limit levels) (separated texts ++ ']' :: rest) := by
        rw [List.cons_append, List.append_assoc]
        rfl
      exact ⟨fun hfaithful => hread.trans (hlist.exact hfaithful),
        fun v' rest' h => hlist.clean v' rest' (hread.symm.trans h)⟩
  | .tuple items, levels, hv => absurd hv id
  | .set items, levels, hv => absurd hv id
  | .dict entries, levels, hv => absurd hv id

/-! ### Writing -/

theorem exists_writeItems {items : List Value} (h : ∀ item ∈ items, ∃ text, write item = .ok text) :
    ∃ texts, writeItems items = .ok texts := by
  induction items with
  | nil => exact ⟨[], rfl⟩
  | cons item items ih =>
      obtain ⟨text, htext⟩ := h item (by simp)
      obtain ⟨texts, htexts⟩ := ih fun v hv => h v (by simp [hv])
      refine ⟨text :: texts, ?_⟩
      rw [writeItems, htext, htexts]
      rfl

theorem exists_writeScalar {s : Scalar} (hs : s.IsLiteral) (hf : s.Faithful) :
    ∃ text, write (.scalar s) = .ok text := by
  cases s with
  | null => exact ⟨_, rfl⟩
  | bool b => cases b <;> exact ⟨_, rfl⟩
  | int n =>
      have hn : Text.integerTooLong n = false := hs
      exact ⟨(toString n).toList, by simp [write, writeInt, hn]⟩
  | float x => exact ⟨_, rfl⟩
  | str s =>
      obtain ⟨r, hr⟩ := exists_read hf.2
      simp only [write, writeText, hr]
      exact ⟨_, rfl⟩
  | date d => exact absurd hs id
  | timestamp t => exact absurd hs id
  | bytes bs => exact absurd hs id

theorem exists_write : ∀ (v : Value) (levels : Nat), v.IsLiteral levels → v.Faithful →
    ∃ text, write v = .ok text
  | .scalar s, levels, hv, hf => exists_writeScalar hv hf
  | .list items, levels, hv, hf => by
      obtain ⟨levels, rfl, hitems⟩ := hv
      obtain ⟨texts, htexts⟩ := exists_writeItems fun item hitem =>
        exists_write item levels (Value.areLiterals_iff.mp hitems item hitem)
          (Value.areFaithful_iff.mp hf item hitem)
      refine ⟨'[' :: (separated texts ++ [']']), ?_⟩
      rw [write, htexts]
      rfl
  | .tuple items, levels, hv, _ => absurd hv id
  | .set items, levels, hv, _ => absurd hv id
  | .dict entries, levels, hv, _ => absurd hv id

end Literal

end AppSpec
