import AppSpec.Proofs.TypeExpr.Constraint.Word
import AppSpec.Proofs.TypeExpr.Grammar.Derive
import AppSpec.Proofs.TypeExpr.Tracks

/-!
The grammar of literals, apart from any way of reading them: it gives what is read wherever a
literal may end, and all that is read is given by it.
-/

namespace AppSpec.TypeGrammar

open Text (AllBlank)
open TypeExpr (LiteralReader)
open TypeText (Passes isMark isQuote)

/-- An item with blanks in front of it. -/
def Padded {α : Type} (Item : List Char → α → Prop) (text : List Char) (a : α) : Prop :=
  ∃ item, Item item a ∧ Token item text

inductive ScalarText : List Char → Value → Prop
  | word {text : List Char} {s : Scalar} (h : Literal.IsWord text s) : ScalarText text (.scalar s)
  | quoted {quote : Char} {body value : List Char} (hquote : isQuote quote = true)
      (hbody : Quoted quote body value) :
      ScalarText (quote :: (body ++ [quote])) (.scalar (.str (String.ofList value)))

section Lists

variable (Item : List Char → Value → Prop)

/-- A list behind the bracket that opens it. -/
inductive ListText : List Char → Value → Prop
  | empty {close : List Char} (hclose : Token [']'] close) : ListText close (.list [])
  | items {text close : List Char} {values : List Value}
      (h : Separated (Padded Item) text values) (hclose : Token [']'] close) :
      ListText (text ++ close) (.list values)

end Lists

/-- The literals whose lists are nested at most so deep. -/
def LiteralText : Nat → List Char → Value → Prop
  | 0, text, v => ScalarText text v
  | levels + 1, text, v =>
      ScalarText text v ∨ ∃ inner, ListText (LiteralText levels) inner v ∧ text = '[' :: inner

/-! ### Where a literal begins and ends -/

variable {Item : List Char → Value → Prop} {item : LiteralReader}
variable {text close cs rest : List Char} {v : Value} {values : List Value}

/-- Values that begin with neither a blank nor a bracket that closes a list. -/
def Begins (Item : List Char → Value → Prop) : Prop :=
  ∀ {text : List Char} {v : Value}, Item text v →
    ∃ c cs, text = c :: cs ∧ Text.isBlank c = false ∧ c ≠ ']'

theorem begins_scalar : Begins ScalarText := by
  intro text v h
  cases h with
  | word h =>
      obtain ⟨c, cs, rfl⟩ := List.exists_cons_of_ne_nil h.ne_nil
      have hblank := Text.skipBlanks_head (Text.skipBlanks_of_trim h.trimmed).1
      exact ⟨c, cs, rfl, hblank, TypeText.ne_of_isMark (h.unmarked c List.mem_cons_self) rfl⟩
  | quoted hquote hbody =>
      rcases isQuote_cases hquote with rfl | rfl
      · exact ⟨_, _, rfl, by decide, by decide⟩
      · exact ⟨_, _, rfl, by decide, by decide⟩

theorem begins_literal (levels : Nat) : Begins (LiteralText levels) := by
  intro text v h
  cases levels with
  | zero => exact begins_scalar h
  | succ levels =>
      rcases h with h | ⟨inner, -, rfl⟩
      · exact begins_scalar h
      · exact ⟨_, _, rfl, by decide, by decide⟩

theorem Padded.prepend {α : Type} {Item : List Char → α → Prop} {a : α} {blanks : List Char}
    (hblanks : AllBlank blanks) (h : Padded Item text a) : Padded Item (blanks ++ text) a := by
  obtain ⟨item, hitem, htext⟩ := h
  exact ⟨item, hitem, htext.prepend hblanks⟩

theorem Padded.exists_bare (hbegins : Begins Item) (h : Padded Item text v) :
    ∃ bare, Item bare v ∧ ∀ rest, Text.skipBlanks (text ++ rest) = bare ++ rest := by
  obtain ⟨bare, hbare, htext⟩ := h
  obtain ⟨c, cs, rfl, hblank, -⟩ := hbegins hbare
  exact ⟨c :: cs, hbare, htext.skipBlanks hblank⟩

/-- What may follow a literal. -/
def LiteralEnds (rest : List Char) : Prop :=
  ∃ c more, Text.skipBlanks rest = c :: more ∧ TypeExpr.isLiteralStop c = true

theorem literalEnds_token {c : Char} {token : List Char} (h : Token [c] token)
    (hc : c = ',' ∨ c = ']') (rest : List Char) : LiteralEnds (token ++ rest) := by
  rcases hc with rfl | rfl
  · exact ⟨_, _, h.skipBlanks (by decide) rest, by decide⟩
  · exact ⟨_, _, h.skipBlanks (by decide) rest, by decide⟩

theorem LiteralEnds.stopHead (h : LiteralEnds rest) :
    TypeText.StopHead TypeExpr.isLiteralStop (Text.skipBlanks rest) := by
  obtain ⟨c, more, hskip, hc⟩ := h
  refine ⟨c, more, hskip, hc, ?_, ?_⟩
  · rintro rfl
    cases hc
  · rintro rfl
    cases hc

/-! ### Reading what the grammar gives -/

/-- Such values are read wherever a literal may end behind them. -/
def ReadsValues (Item : List Char → Value → Prop) (item : LiteralReader) : Prop :=
  ∀ {text : List Char} {v : Value}, Item text v → ∀ {rest : List Char}, LiteralEnds rest →
    ∃ left, item (text ++ rest) = .ok (some v, left) ∧ Text.skipBlanks left = Text.skipBlanks rest

theorem splitBare_unmarked (h : ∀ c ∈ cs, isMark c = false)
    (hrest : TypeText.StopHead TypeExpr.isLiteralStop rest) :
    TypeText.splitBare TypeExpr.isLiteralStop 0 (cs ++ rest) = (cs, rest) := by
  refine TypeText.splitBare_append_stop (fun c hc => ?_) hrest
  have hne {d : Char} (hd : isMark d = true) : c ≠ d := TypeText.ne_of_isMark (h c hc) hd
  refine ⟨hne (by decide), hne (by decide), ?_⟩
  simp only [TypeExpr.isLiteralStop, Bool.or_eq_false_iff, beq_eq_false_iff_ne]
  exact ⟨⟨hne (by decide), hne (by decide)⟩, hne (by decide)⟩

theorem readLiteralWith_word (list : LiteralReader) {s : Scalar} (h : Literal.IsWord text s)
    (hrest : LiteralEnds rest) :
    TypeExpr.readLiteralWith list (text ++ rest) =
      .ok (some (.scalar s), Text.skipBlanks rest) := by
  obtain ⟨blanks, hblanks, hsplit⟩ := Text.exists_skipBlanks rest
  have hchars : ∀ c ∈ text ++ blanks, isMark c = false := fun c hc =>
    (List.mem_append.mp hc).elim (h.unmarked c) fun hc =>
      TypeText.isMark_eq_false (p := Text.isBlank) (by decide) (hblanks c hc)
  have hraw : TypeText.splitBare TypeExpr.isLiteralStop 0 (text ++ rest) =
      (text ++ blanks, Text.skipBlanks rest) := by
    rw [hsplit, ← List.append_assoc, hblanks.skipBlanks, Text.skipBlanks_skipBlanks]
    exact splitBare_unmarked hchars hrest.stopHead
  have htrim : Text.trim (text ++ blanks) = text := Text.trim_append h.trimmed h.ne_nil hblanks
  obtain ⟨c, cs, rfl⟩ := List.exists_cons_of_ne_nil h.ne_nil
  have hhead {d : Char} (hd : isMark d = true) (more : List Char) :
      c :: cs ++ rest ≠ d :: more := fun heq =>
    TypeText.ne_of_isMark (h.unmarked c List.mem_cons_self) hd (List.cons.inj heq).1
  rw [TypeExpr.readLiteralWith_unquoted list (hhead (by decide)) (hhead (by decide))
    (hhead (by decide)), hraw, htrim, h.reads]
  rfl

theorem readLiteralWith_quoted (list : LiteralReader) {quote : Char} (hquote : isQuote quote = true)
    {body value : List Char} (hbody : Quoted quote body value) (rest : List Char) :
    TypeExpr.readLiteralWith list (quote :: (body ++ [quote]) ++ rest) =
      .ok (some (.scalar (.str (String.ofList value))), rest) := by
  have hsplit := hbody.splitQuoted (by rcases isQuote_cases hquote with rfl | rfl <;> decide) rest
  rw [List.cons_append, List.append_assoc, List.singleton_append]
  rcases isQuote_cases hquote with rfl | rfl
  · simp only [TypeExpr.readLiteralWith, hsplit]
    rfl
  · simp only [TypeExpr.readLiteralWith, hsplit]
    rfl

theorem readsValues_scalar (list : LiteralReader) :
    ReadsValues ScalarText (TypeExpr.readLiteralWith list) := by
  intro text v h rest hrest
  cases h with
  | word h => exact ⟨_, readLiteralWith_word list h hrest, Text.skipBlanks_skipBlanks rest⟩
  | quoted hquote hbody => exact ⟨rest, readLiteralWith_quoted list hquote hbody rest, rfl⟩

section Lists

variable (hitem : ReadsValues Item item) (hbegins : Begins Item) (hclose : Token [']'] close)

include hitem hbegins hclose

theorem readItems_separated (h : Separated (Padded Item) text values) (rest : List Char)
    (steps : Nat) (hsteps : values.length ≤ steps) :
    TypeExpr.readItems item steps (text ++ (close ++ rest)) = .ok (some values, rest) := by
  have hend : Text.skipBlanks (close ++ rest) = ']' :: rest := hclose.skipBlanks (by decide) rest
  induction h generalizing steps with
  | last h =>
      obtain ⟨steps, rfl⟩ : ∃ n, steps = n + 1 := ⟨steps - 1, by simp at hsteps; omega⟩
      obtain ⟨bare, hbare, hskip⟩ := h.exists_bare hbegins
      obtain ⟨left, hleft, hrest⟩ := hitem hbare (literalEnds_token hclose (.inr rfl) rest)
      rw [TypeExpr.readItems, hskip, hleft]
      simp only [bind, Except.bind, hrest, hend]
      rfl
  | @next text comma more v values h hcomma _ ih =>
      obtain ⟨steps, rfl⟩ : ∃ n, steps = n + 1 := ⟨steps - 1, by simp at hsteps; omega⟩
      obtain ⟨bare, hbare, hskip⟩ := h.exists_bare hbegins
      obtain ⟨left, hleft, hrest⟩ :=
        hitem hbare (literalEnds_token hcomma (.inl rfl) (more ++ (close ++ rest)))
      have hlater := ih steps (by simpa using hsteps)
      rw [hcomma.skipBlanks (by decide), List.nil_append] at hrest
      rw [List.append_assoc, List.append_assoc, TypeExpr.readItems, hskip, hleft]
      simp only [bind, Except.bind, hrest, hlater]
      rfl

omit hitem hclose in
theorem Separated.exists_bare (h : Separated (Padded Item) text values) :
    ∃ c cs, Separated (Padded Item) (c :: cs) values ∧ Text.isBlank c = false ∧ c ≠ ']' ∧
      ∀ rest, Text.skipBlanks (text ++ rest) = c :: (cs ++ rest) := by
  cases h with
  | last h =>
      obtain ⟨bare, hbare, hskip⟩ := h.exists_bare hbegins
      obtain ⟨c, cs, rfl, hblank, hc⟩ := hbegins hbare
      exact ⟨c, cs, .last ⟨_, hbare, [], Text.allBlank_nil, rfl⟩, hblank, hc, hskip⟩
  | @next text comma more v values h hcomma hmore =>
      obtain ⟨bare, hbare, hskip⟩ := h.exists_bare hbegins
      obtain ⟨c, cs, rfl, hblank, hc⟩ := hbegins hbare
      refine ⟨c, cs ++ (comma ++ more),
        .next ⟨_, hbare, [], Text.allBlank_nil, rfl⟩ hcomma hmore, hblank, hc, fun rest => ?_⟩
      rw [List.append_assoc, hskip]
      simp only [List.cons_append, List.append_assoc]

omit hclose in
theorem ListText.read (h : ListText Item text v) (rest : List Char) :
    TypeExpr.readList item (text ++ rest) = .ok (some v, rest) := by
  cases h with
  | empty hclose =>
      rw [TypeExpr.readList, hclose.skipBlanks (by decide)]
      rfl
  | @items text close values h hclose =>
      obtain ⟨c, cs, hbare, -, hc, hskip⟩ := h.exists_bare hbegins
      have hlength := hbare.length_le
      have hitems := readItems_separated hitem hbegins hclose hbare rest
        ((c :: (cs ++ (close ++ rest))).length + 1) (by
          simp only [List.length_cons, List.length_append] at hlength ⊢
          omega)
      rw [List.cons_append] at hitems
      rw [List.append_assoc, TypeExpr.readList, hskip]
      split
      · next heq => exact absurd (List.cons.inj heq).1 hc
      · rw [hitems]
        rfl

end Lists

theorem readsValues_literal (limit : Int) (levels : Nat) :
    ReadsValues (LiteralText levels) (TypeExpr.readLiteral limit levels) := by
  induction levels with
  | zero => exact readsValues_scalar _
  | succ levels ih =>
      intro text v h rest hrest
      rcases h with h | ⟨inner, h, rfl⟩
      · exact readsValues_scalar _ h hrest
      · exact ⟨rest, h.read ih (begins_literal levels) rest, rfl⟩

/-! ### What is read -/

/-- All values that are read are such. -/
def YieldsValues (Item : List Char → Value → Prop) (item : LiteralReader) : Prop :=
  ∀ {cs : List Char} {v : Value} {rest : List Char}, item cs = .ok (some v, rest) →
    Takes (fun text => Padded Item text v) cs rest

theorem takes_skipped {G : List Char → Prop} (h : Takes G (Text.skipBlanks cs) rest)
    (hG : ∀ blanks text, AllBlank blanks → G text → G (blanks ++ text)) : Takes G cs rest := by
  obtain ⟨blanks, hblanks, hcs⟩ := Text.exists_skipBlanks cs
  obtain ⟨text, behind, htext, hbehind, hskip⟩ := h
  refine ⟨blanks ++ text, behind, hG blanks text hblanks htext, hbehind, ?_⟩
  rw [List.append_assoc, ← hskip, ← hcs]

theorem readItems_yields (hitem : YieldsValues Item item) (steps : Nat)
    (h : TypeExpr.readItems item steps cs = .ok (some values, rest)) :
    ∃ text close, Separated (Padded Item) text values ∧ Token [']'] close ∧
      cs = text ++ (close ++ rest) := by
  induction steps generalizing cs values with
  | zero => cases h
  | succ steps ih =>
      obtain ⟨n, value, after, hn, hvalue, hcases⟩ := Literal.readItems_some h
      cases hn
      have htakes : Takes (fun text => Padded Item text value) cs after :=
        takes_skipped (hitem hvalue) fun _ _ hblanks htext => htext.prepend hblanks
      rcases hcases with ⟨hend, rfl⟩ | ⟨more, values, hmore, hvalues, rfl⟩
      · obtain ⟨text, close, htext, hclose, hcs⟩ := htakes.token hend
        exact ⟨text, close, .last htext, hclose, hcs⟩
      · obtain ⟨text, comma, htext, hcomma, hcs⟩ := htakes.token hmore
        obtain ⟨later, close, hlater, hclose, rfl⟩ := ih hvalues
        refine ⟨_, close, .next htext hcomma hlater, hclose, ?_⟩
        rw [hcs]
        simp only [List.append_assoc]

theorem readList_yields (hitem : YieldsValues Item item)
    (h : TypeExpr.readList item cs = .ok (some v, rest)) :
    ∃ text, ListText Item text v ∧ cs = text ++ rest := by
  rw [TypeExpr.readList] at h
  split at h
  · next hskip =>
      obtain ⟨close, hclose, hcs⟩ := exists_token hskip
      cases h
      exact ⟨close, .empty hclose, hcs⟩
  · obtain ⟨⟨values, after⟩, hitems, hvalues⟩ := bind_eq_ok.mp h
    cases values with
    | none => cases hvalues
    | some values =>
        cases hvalues
        obtain ⟨blanks, hblanks, hcs⟩ := Text.exists_skipBlanks cs
        obtain ⟨text, close, htext, hclose, hskip⟩ := readItems_yields hitem _ hitems
        have htext : Separated (Padded Item) (blanks ++ text) values := by
          cases htext with
          | last hitem => exact .last (hitem.prepend hblanks)
          | next hitem hcomma hmore =>
              rw [← List.append_assoc]
              exact .next (hitem.prepend hblanks) hcomma hmore
        refine ⟨_, .items htext hclose, ?_⟩
        rw [hcs, hskip]
        simp only [List.append_assoc]

theorem splitQuoted_yields {quote : Char} (hquote : isQuote quote = true)
    (h : ((TypeText.splitQuoted quote cs).1.map
        fun text => Value.scalar (.str (String.ofList text)),
      (TypeText.splitQuoted quote cs).2) = (some v, rest)) :
    Takes (fun text => Padded ScalarText text v) (quote :: cs) rest := by
  obtain ⟨⟨value, after⟩, hsplit⟩ : ∃ r, TypeText.splitQuoted quote cs = r := ⟨_, rfl⟩
  rw [hsplit] at h
  obtain ⟨hvalue, rfl⟩ := Prod.mk.inj h
  obtain ⟨value, rfl, rfl⟩ := Option.map_eq_some_iff.mp hvalue
  obtain ⟨body, hbody, rfl⟩ := quoted_of_splitQuoted hsplit
  refine ⟨_, [], ⟨_, .quoted hquote hbody, [], Text.allBlank_nil, rfl⟩, Text.allBlank_nil, ?_⟩
  simp

theorem readLiteralWith_yields {list : LiteralReader}
    (h : TypeExpr.readLiteralWith list cs = .ok (some v, rest)) :
    Takes (fun text => Padded ScalarText text v) cs rest ∨
      ∃ more, cs = '[' :: more ∧ list more = .ok (some v, rest) := by
  unfold TypeExpr.readLiteralWith at h
  split at h
  · exact .inr ⟨_, rfl, h⟩
  · exact .inl (splitQuoted_yields (by decide) (Except.ok.inj h))
  · exact .inl (splitQuoted_yields (by decide) (Except.ok.inj h))
  · left
    have hraw := TypeText.splitBare_append TypeExpr.isLiteralStop 0 cs
    dsimp only at h
    split at h
    · next value hread =>
        obtain ⟨hvalue, hrest⟩ := Prod.mk.inj (Except.ok.inj h)
        obtain ⟨s, rfl, rfl⟩ := Option.map_eq_some_iff.mp hvalue
        obtain ⟨before, behind, hbefore, hbehind, hsplit⟩ :=
          Text.exists_trim (TypeText.splitBare TypeExpr.isLiteralStop 0 cs).1
        refine ⟨_, behind, ⟨_, .word ⟨Text.trim_trim _, hread⟩, before, hbefore, rfl⟩, hbehind, ?_⟩
        rw [← List.append_assoc, ← hsplit, ← hrest, hraw]
    · cases h

theorem yieldsValues_literal (limit : Int) (levels : Nat) :
    YieldsValues (LiteralText levels) (TypeExpr.readLiteral limit levels) := by
  induction levels with
  | zero =>
      intro cs v rest h
      rcases readLiteralWith_yields h with h | ⟨more, -, h⟩
      · exact h
      · cases h
  | succ levels ih =>
      intro cs v rest h
      rcases readLiteralWith_yields h with h | ⟨more, rfl, h⟩
      · refine h.mono fun text htext => ?_
        obtain ⟨bare, hbare, hpad⟩ := htext
        exact ⟨bare, .inl hbare, hpad⟩
      · obtain ⟨inner, hinner, rfl⟩ := readList_yields ih h
        exact ⟨'[' :: inner, [], ⟨_, .inr ⟨inner, hinner, rfl⟩, [], Text.allBlank_nil, rfl⟩,
          Text.allBlank_nil, rfl⟩

/-! ### Passing over literals -/

/-- Values that are passed over as a whole, however deep they are. -/
def PassedOver (Item : List Char → Value → Prop) : Prop :=
  ∀ {text : List Char} {v : Value}, Item text v → ∀ n, Passes n n text

theorem passes_blanks {blanks : List Char} (h : AllBlank blanks) (n : Nat) : Passes n n blanks :=
  .plains n fun c hc => TypeText.isMark_eq_false (p := Text.isBlank) (by decide) (h c hc)

theorem Token.passes {token : List Char} {m n : Nat} (h : Token token text)
    (htoken : Passes m n token) : Passes m n text := by
  obtain ⟨blanks, hblanks, rfl⟩ := h
  exact (passes_blanks hblanks m).append htoken

theorem Padded.passes (hitem : PassedOver Item) (h : Padded Item text v) (n : Nat) :
    Passes n n text := by
  obtain ⟨item, hvalue, htext⟩ := h
  exact htext.passes (hitem hvalue n)

theorem Separated.passes (hitem : PassedOver Item) (h : Separated (Padded Item) text values)
    (n : Nat) : Passes (n + 1) (n + 1) text := by
  induction h with
  | last h => exact h.passes hitem (n + 1)
  | next h hcomma _ ih =>
      exact (h.passes hitem (n + 1)).append ((hcomma.passes (.comma n)).append ih)

theorem ListText.passes (hitem : PassedOver Item) (h : ListText Item text v) (n : Nat) :
    Passes (n + 1) n text := by
  cases h with
  | empty hclose => exact hclose.passes (.closing n rfl)
  | items h hclose => exact (h.passes hitem n).append (hclose.passes (.closing n rfl))

theorem ScalarText.passes (h : ScalarText text v) (n : Nat) : Passes n n text := by
  cases h with
  | word h => exact .plains n h.unmarked
  | quoted hquote hbody => exact .quoted n hquote hbody

theorem passedOver_literal (levels : Nat) : PassedOver (LiteralText levels) := by
  induction levels with
  | zero => exact ScalarText.passes
  | succ levels ih =>
      intro text v h n
      rcases h with h | ⟨inner, hinner, rfl⟩
      · exact h.passes n
      · exact (Passes.opening n rfl).append (hinner.passes ih n)

/-- What is in front of the rest is passed over. -/
theorem Takes.passes (hitem : PassedOver Item)
    (h : Takes (fun text => Padded Item text v) cs rest) :
    ∃ before, cs = before ++ rest ∧ ∀ n, Passes n n before := by
  obtain ⟨text, blanks, htext, hblanks, rfl⟩ := h
  exact ⟨text ++ blanks, (List.append_assoc _ _ _).symm, fun n =>
    (htext.passes hitem n).append (passes_blanks hblanks n)⟩

/-! ### Lists that are nested too deep -/

/-- The fault is at a bracket, and what stands in front of it only opens others; so deep at least
the whole has to be. -/
def FaultsBehind (base : Nat) (cs : List Char) (f : TypeFault) : Prop :=
  ∃ before after n, cs = before ++ '[' :: after ∧ f.left = after.length + 1 ∧
    ∀ m, base ≤ m → Passes m (m + n) before

namespace FaultsBehind

variable {base : Nat} {f : TypeFault}

theorem after {before : List Char} (hbefore : ∀ m, base ≤ m → Passes m m before)
    (h : FaultsBehind base cs f) : FaultsBehind base (before ++ cs) f := by
  obtain ⟨opened, after, n, rfl, hleft, hpasses⟩ := h
  exact ⟨before ++ opened, after, n, (List.append_assoc _ _ _).symm, hleft, fun m hm =>
    (hbefore m hm).append (hpasses m hm)⟩

theorem deeper (h : FaultsBehind base cs f) : FaultsBehind (base + 1) cs f := by
  obtain ⟨opened, after, n, hcs, hleft, hpasses⟩ := h
  exact ⟨opened, after, n, hcs, hleft, fun m hm => hpasses m (Nat.le_of_succ_le hm)⟩

theorem opened (h : FaultsBehind (base + 1) cs f) : FaultsBehind base ('[' :: cs) f := by
  obtain ⟨opened, after, n, rfl, hleft, hpasses⟩ := h
  refine ⟨'[' :: opened, after, n + 1, rfl, hleft, fun m hm => ?_⟩
  have h := (Passes.opening m (by rfl : TypeText.isOpening '[' = true)).append
    (hpasses (m + 1) (Nat.succ_le_succ hm))
  rwa [Nat.add_right_comm, Nat.add_assoc] at h

theorem afterBlanks (h : FaultsBehind base (Text.skipBlanks cs) f) : FaultsBehind base cs f := by
  obtain ⟨blanks, hblanks, hcs⟩ := Text.exists_skipBlanks cs
  rw [hcs]
  exact h.after fun m _ => passes_blanks hblanks m

end FaultsBehind

/-- Every fault is that of a list which is nested too deep. -/
def FaultsAtBrackets (item : LiteralReader) : Prop :=
  ∀ {cs : List Char} {f : TypeFault}, item cs = .error (.fault f) → FaultsBehind 0 cs f

theorem readItems_fault (hfault : FaultsAtBrackets item) (hitem : YieldsValues Item item)
    (hpassed : PassedOver Item) (steps : Nat) {f : TypeFault}
    (h : TypeExpr.readItems item steps cs = .error (.fault f)) : FaultsBehind 1 cs f := by
  induction steps generalizing cs with
  | zero => cases h
  | succ steps ih =>
      rw [TypeExpr.readItems] at h
      rcases bind_eq_error.mp h with h | ⟨⟨value, after⟩, hvalue, h⟩
      · exact (hfault h).deeper.afterBlanks
      · cases value with
        | none => cases h
        | some value =>
            dsimp only at h
            split at h
            · next more hmore =>
                have hlater : FaultsBehind 1 more f := by
                  rcases bind_eq_error.mp h with h | ⟨_, -, h⟩
                  · exact ih h
                  · cases h
                have htakes : Takes (fun text => Padded Item text value) cs after :=
                  takes_skipped (hitem hvalue) fun _ _ hblanks htext => htext.prepend hblanks
                obtain ⟨before, rfl, hbefore⟩ := htakes.passes hpassed
                obtain ⟨comma, hcomma, rfl⟩ := exists_token hmore
                refine (hlater.after fun m hm => ?_).after fun m _ => hbefore m
                obtain ⟨m, rfl⟩ : ∃ k, m = k + 1 := ⟨m - 1, by omega⟩
                exact hcomma.passes (.comma m)
            · cases h
            · cases h

theorem readList_fault (hfault : FaultsAtBrackets item) (hitem : YieldsValues Item item)
    (hpassed : PassedOver Item) {f : TypeFault}
    (h : TypeExpr.readList item cs = .error (.fault f)) : FaultsBehind 1 cs f := by
  rw [TypeExpr.readList] at h
  split at h
  · cases h
  · rcases bind_eq_error.mp h with h | ⟨_, -, h⟩
    · exact (readItems_fault hfault hitem hpassed _ h).afterBlanks
    · cases h

theorem readLiteralWith_fault {list : LiteralReader} {f : TypeFault}
    (h : TypeExpr.readLiteralWith list cs = .error (.fault f)) :
    ∃ more, cs = '[' :: more ∧ list more = .error (.fault f) := by
  unfold TypeExpr.readLiteralWith at h
  split at h
  · exact ⟨_, rfl, h⟩
  · cases h
  · cases h
  · dsimp only at h
    split at h
    · cases h
    · cases h

theorem faultsAtBrackets_literal (limit : Int) (levels : Nat) :
    FaultsAtBrackets (TypeExpr.readLiteral limit levels) := by
  induction levels with
  | zero =>
      intro cs f h
      obtain ⟨more, rfl, h⟩ := readLiteralWith_fault h
      cases h
      exact ⟨[], more, 0, rfl, rfl, fun m _ => .nil m⟩
  | succ levels ih =>
      intro cs f h
      obtain ⟨more, rfl, h⟩ := readLiteralWith_fault h
      exact (readList_fault ih (yieldsValues_literal limit levels)
        (passedOver_literal levels) h).opened

end AppSpec.TypeGrammar
