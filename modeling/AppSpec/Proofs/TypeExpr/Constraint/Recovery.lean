import AppSpec.Proofs.TypeExpr.Constraint.Entry

/-!
Where the skipping comes to from a value that is no literal. If the value has no commas, braces and
quotes, that is the end of the entry, wherever the reading gives up and however many brackets are
open there.
-/

namespace AppSpec

theorem Text.HasLongNumber.of_concat {cs : List Char} {c : Char} (h : HasLongNumber (cs ++ [c]))
    (hc : isDigit c = false) : HasLongNumber cs := by
  obtain ⟨digits, hinfix, hdigits, hlong⟩ := h
  refine ⟨digits, ?_, hdigits, hlong⟩
  rcases List.infix_concat_iff.mp hinfix with hsuffix | hinfix
  · rcases List.suffix_concat_iff.mp hsuffix with rfl | ⟨digits, rfl, -⟩
    · exact List.nil_infix
    · rw [List.all_append, Bool.and_eq_true, List.all_cons, hc] at hdigits
      cases hdigits.2
  · exact hinfix

namespace TypeText

variable {m n : Nat} {c stop : Char} {cs before left : List Char}

/-- The characters that no entry ends at, and that nothing else than brackets begins with. -/
def isSimple (c : Char) : Bool := !(c == ',' || c == '\x7b' || c == '\x7d' || isQuote c)

theorem isSimple_iff : isSimple c = true ↔
    (((c == ',') = false ∧ (c == '\x7b') = false) ∧ (c == '\x7d') = false) ∧
      isQuote c = false := by
  simp only [isSimple, Bool.not_eq_true', Bool.or_eq_false_iff]

/-- How deep in brackets the text behind is; a bracket that closes none is passed over. -/
def depthBehind : Nat → List Char → Nat
  | n, [] => n
  | n, c :: cs =>
      depthBehind (if isOpening c then n + 1 else if isClosing c then n - 1 else n) cs

theorem depthBehind_le (hle : m ≤ n) (cs : List Char) : depthBehind m cs ≤ depthBehind n cs := by
  induction cs generalizing m n with
  | nil => exact hle
  | cons c cs ih =>
      rw [depthBehind, depthBehind]
      refine ih ?_
      split
      · omega
      · split
        · omega
        · exact hle

theorem passes_simple (n : Nat) (hc : isSimple c = true) :
    Passes n (if isOpening c then n + 1 else if isClosing c then n - 1 else n) [c] := by
  split
  · next hopen => exact .opening n hopen
  · next hopen =>
      split
      · next hclose =>
          cases n with
          | succ n => exact .closing n hclose
          | zero =>
              intro rest
              rw [isSimple_iff] at hc
              rw [isOpening] at hopen
              rw [isClosing] at hclose
              rw [List.singleton_append, skipEntry, if_neg hopen, if_pos hclose, if_pos rfl,
                if_neg (Bool.not_eq_true _ ▸ hc.1.2)]
      · next hclose =>
          refine .plain n ?_
          rw [isSimple_iff] at hc
          simp [isMark, hopen, hclose, hc]

theorem passes_depthBehind (n : Nat) (h : ∀ c ∈ cs, isSimple c = true) :
    Passes n (depthBehind n cs) cs := by
  induction cs generalizing n with
  | nil => exact .nil n
  | cons c cs ih =>
      obtain ⟨hc, hcs⟩ := List.forall_mem_cons.mp h
      exact (passes_simple n hc).append (ih _ hcs)

/-- An entry ends behind a text in one way only. -/
theorem Passes.eq_zero (h : Passes m 0 cs) (h' : Passes m n cs) : n = 0 := by
  cases n with
  | zero => rfl
  | succ n =>
      have hcomma := (h' [',']).symm.trans (h [','])
      simp [skipEntry, isQuote] at hcomma

/-- A simple text behind which no bracket is open. -/
structure Closes (n : Nat) (cs : List Char) : Prop where
  simple : ∀ c ∈ cs, isSimple c = true
  passes : Passes n 0 cs

namespace Closes

theorem cancel (h : Closes m (before ++ left)) (hbefore : Passes m n before) : Closes n left :=
  ⟨fun c hc => h.simple c (List.mem_append_right _ hc), h.passes.cancel hbefore⟩

theorem of_le (h : Closes n cs) (hle : m ≤ n) : Closes m cs := by
  have hzero := h.passes.eq_zero (passes_depthBehind n h.simple)
  have hm : depthBehind m cs = 0 := Nat.le_zero.mp (hzero ▸ depthBehind_le hle cs)
  exact ⟨h.simple, hm ▸ passes_depthBehind m h.simple⟩

theorem suffix (h : Closes n cs) (hleft : left <:+ cs) : Closes 0 left := by
  obtain ⟨before, rfl⟩ := hleft
  have hbefore := passes_depthBehind n fun c hc => h.simple c (List.mem_append_left _ hc)
  exact (h.cancel hbefore).of_le (Nat.zero_le _)

/-- A bracket that is open is closed by something. -/
theorem exists_cons (h : Closes (n + 1) cs) : ∃ c more, cs = c :: more := by
  cases cs with
  | nil => cases h.passes.eq_zero (.nil (n + 1))
  | cons c more => exact ⟨c, more, rfl⟩

theorem skipEntry (h : Closes 0 cs) (hstop : isEntryEnd stop = true) :
    skipEntry 0 .outside (cs ++ [stop]) = [stop] := by
  rw [h.passes, skipEntry_end hstop]

end Closes

end TypeText

namespace TypeGrammar

open TypeExpr (LiteralReader)
open TypeText (Closes Passes isClosing isEntryEnd isOpening isSimple isSimple_iff)

variable {limit : Int} {stop : Char} {cs entry value : List Char}

theorem isOpening_simple {c : Char} (hc : isSimple c = true) :
    isOpening c = (c == '(' || c == '[') := by
  rw [isSimple_iff] at hc
  rw [isOpening, hc.1.1.2, Bool.or_false, Bool.or_comm]

theorem isClosing_simple {c : Char} (hc : isSimple c = true) :
    isClosing c = (c == ')' || c == ']') := by
  rw [isSimple_iff] at hc
  rw [isClosing, hc.1.2, Bool.or_false, Bool.or_comm]

theorem closes_skipBlanks {n : Nat} (h : Closes n cs) : Closes n (Text.skipBlanks cs) := by
  obtain ⟨blanks, hblanks, hsplit⟩ := Text.exists_skipBlanks cs
  exact (hsplit ▸ h).cancel (passes_blanks hblanks n)

theorem splitBare_closes (hstop : isEntryEnd stop = true) {n : Nat} (h : Closes n cs) :
    ∃ left, left <:+ cs ∧
      (TypeText.splitBare TypeExpr.isLiteralStop n (cs ++ [stop])).2 = left ++ [stop] := by
  induction cs generalizing n with
  | nil =>
      obtain rfl := h.passes.eq_zero (.nil n)
      refine ⟨[], List.nil_suffix, ?_⟩
      rw [isEntryEnd, Bool.or_eq_true, beq_iff_eq, beq_iff_eq] at hstop
      rcases hstop with rfl | rfl <;> rfl
  | cons c cs ih =>
      have hc : isSimple c = true := h.simple c List.mem_cons_self
      have hnext {k : Nat} (hpasses : Passes n k [c]) : ∃ left, left <:+ c :: cs ∧
          (TypeText.splitBare TypeExpr.isLiteralStop k (cs ++ [stop])).2 = left ++ [stop] := by
        have h : Closes n ([c] ++ cs) := h
        obtain ⟨left, hleft, hsplit⟩ := ih (h.cancel hpasses)
        exact ⟨left, hleft.trans (List.suffix_cons c cs), hsplit⟩
      have hstep := TypeText.passes_simple n hc
      rw [List.cons_append, TypeText.splitBare, ← isOpening_simple hc, ← isClosing_simple hc]
      split
      · next hopen =>
          rw [if_pos hopen] at hstep
          exact hnext hstep
      · next hopen =>
          rw [if_neg hopen] at hstep
          split
          · next hclose =>
              rw [Bool.and_eq_true] at hclose
              rw [if_pos hclose.1] at hstep
              exact hnext hstep
          · next hclose =>
              -- a bracket that closes none leaves the nesting as it is
              have hsame : (if isClosing c then n - 1 else n) = n := by
                split
                · next hc =>
                    rw [hc, Bool.true_and, decide_eq_true_eq] at hclose
                    omega
                · rfl
              rw [hsame] at hstep
              split
              · exact ⟨c :: cs, List.suffix_refl _, rfl⟩
              · exact hnext hstep

/-- Of a simple text in which all brackets are closed, and an end behind it, such a reader leaves
the end. -/
def LeavesEnd (item : LiteralReader) : Prop :=
  ∀ {cs rest : List Char} {stop : Char} {v : Option Value}, Closes 0 cs → isEntryEnd stop = true →
    item (cs ++ [stop]) = .ok (v, rest) → ∃ left, left <:+ cs ∧ rest = left ++ [stop]

section Lists

variable {item : LiteralReader} (hitem : LeavesEnd item)

include hitem

theorem readItems_leavesEnd {Item : List Char → Value → Prop} (hyields : YieldsValues Item item)
    (hpassed : PassedOver Item) (hstop : isEntryEnd stop = true) (steps : Nat)
    {values : Option (List Value)} {rest : List Char} (h : Closes 1 cs)
    (hread : TypeExpr.readItems item steps (cs ++ [stop]) = .ok (values, rest)) :
    ∃ left, left <:+ cs ∧ rest = left ++ [stop] := by
  cases steps with
  | zero =>
      cases hread
      exact ⟨cs, List.suffix_refl cs, rfl⟩
  | succ steps =>
      have hblank := isBlank_of_isEntryEnd hstop
      rw [TypeExpr.readItems, skipBlanks_append hblank] at hread
      obtain ⟨⟨value, after⟩, hvalue, hread⟩ := bind_eq_ok.mp hread
      have hsuffix := Text.skipBlanks_suffix cs
      obtain ⟨left, hleft, rfl⟩ := hitem (h.suffix hsuffix) hstop hvalue
      cases value with
      | none =>
          cases hread
          exact ⟨left, hleft.trans hsuffix, rfl⟩
      | some value =>
          obtain ⟨before, hbefore, hpasses⟩ := (hyields hvalue).passes hpassed
          rw [← List.append_assoc, List.append_cancel_right_eq] at hbefore
          have hopen : Closes 1 left := (hbefore ▸ closes_skipBlanks h).cancel (hpasses 1)
          have hbare := ((Text.skipBlanks_suffix left).trans hleft).trans hsuffix
          -- the list is still open, so that the entry does not end here
          obtain ⟨c, more, hskip⟩ := (closes_skipBlanks hopen).exists_cons
          dsimp only at hread
          rw [skipBlanks_append hblank, hskip] at hread
          rw [hskip] at hbare
          split at hread
          · next heq =>
              have hcomma : isSimple c = true := h.simple c (hbare.subset List.mem_cons_self)
              obtain ⟨rfl, -⟩ := List.cons.inj heq
              cases hcomma
          · next heq =>
              obtain ⟨-, rfl⟩ := List.cons.inj heq
              cases hread
              exact ⟨more, (List.suffix_cons c more).trans hbare, rfl⟩
          · cases hread
            exact ⟨c :: more, hbare, rfl⟩

theorem readList_leavesEnd {Item : List Char → Value → Prop} (hyields : YieldsValues Item item)
    (hpassed : PassedOver Item) (hstop : isEntryEnd stop = true) {v : Option Value}
    {rest : List Char} (h : Closes 1 cs)
    (hread : TypeExpr.readList item (cs ++ [stop]) = .ok (v, rest)) :
    ∃ left, left <:+ cs ∧ rest = left ++ [stop] := by
  have hsuffix := Text.skipBlanks_suffix cs
  have hskipped := closes_skipBlanks h
  rw [TypeExpr.readList, skipBlanks_append (isBlank_of_isEntryEnd hstop)] at hread
  split at hread
  · next heq =>
      obtain ⟨c, more, hskip⟩ := hskipped.exists_cons
      rw [hskip] at heq hsuffix
      obtain ⟨-, rfl⟩ := List.cons.inj heq
      cases hread
      exact ⟨more, (List.suffix_cons c more).trans hsuffix, rfl⟩
  · obtain ⟨⟨values, after⟩, hitems, hread⟩ := bind_eq_ok.mp hread
    cases hread
    obtain ⟨left, hleft, hrest⟩ :=
      readItems_leavesEnd hitem hyields hpassed hstop _ hskipped hitems
    exact ⟨left, hleft.trans hsuffix, hrest⟩

end Lists

theorem exists_tail (hstop : isEntryEnd stop = true) {c : Char} (hc : isEntryEnd c = false)
    {more : List Char} (h : cs ++ [stop] = c :: more) :
    ∃ tail, cs = c :: tail ∧ more = tail ++ [stop] := by
  cases cs with
  | nil => exact absurd (hc.symm.trans ((List.cons.inj h).1 ▸ hstop)) Bool.false_ne_true
  | cons d tail =>
      obtain ⟨rfl, rfl⟩ := List.cons.inj h
      exact ⟨tail, rfl, rfl⟩

theorem readLiteralWith_leavesEnd {list : LiteralReader} (hstop : isEntryEnd stop = true)
    {v : Option Value} {rest : List Char} (h : Closes 0 cs)
    (hlist : ∀ {cs}, Closes 1 cs → list (cs ++ [stop]) = .ok (v, rest) →
      ∃ left, left <:+ cs ∧ rest = left ++ [stop])
    (hread : TypeExpr.readLiteralWith list (cs ++ [stop]) = .ok (v, rest)) :
    ∃ left, left <:+ cs ∧ rest = left ++ [stop] := by
  have hunquoted {quote : Char} (hquote : isSimple quote = false)
      (hend : isEntryEnd quote = false) (more : List Char) : cs ++ [stop] ≠ quote :: more := by
    intro heq
    obtain ⟨tail, rfl, -⟩ := exists_tail hstop hend heq
    exact Bool.false_ne_true (hquote.symm.trans (h.simple quote List.mem_cons_self))
  unfold TypeExpr.readLiteralWith at hread
  split at hread
  · next heq =>
      obtain ⟨tail, rfl, rfl⟩ := exists_tail hstop (by decide) heq
      have hopened : Closes 0 (['['] ++ tail) := h
      obtain ⟨left, hleft, hrest⟩ := hlist (hopened.cancel (.opening 0 rfl)) hread
      exact ⟨left, hleft.trans (List.suffix_cons _ _), hrest⟩
  · next heq => exact absurd heq (hunquoted (by decide) (by decide) _)
  · next heq => exact absurd heq (hunquoted (by decide) (by decide) _)
  · dsimp only at hread
    obtain ⟨left, hleft, hsplit⟩ := splitBare_closes hstop h
    split at hread
    · obtain ⟨-, rfl⟩ := Prod.mk.inj (Except.ok.inj hread)
      exact ⟨left, hleft, hsplit⟩
    · cases hread

theorem leavesEnd_literal (limit : Int) (levels : Nat) :
    LeavesEnd (TypeExpr.readLiteral limit levels) := by
  induction levels with
  | zero =>
      intro cs rest stop v h hstop hread
      refine readLiteralWith_leavesEnd hstop h (fun _ hdeep => ?_) hread
      cases hdeep
  | succ levels ih =>
      intro cs rest stop v h hstop hread
      exact readLiteralWith_leavesEnd hstop h (readList_leavesEnd ih
        (yieldsValues_literal limit levels) (passedOver_literal levels) hstop) hread

/-! ### Entries that recover -/

theorem recovers_of_value? (h : value? entry = none) : Recovers limit entry := by
  constructor
  · intro value stop failure hvalue
    rw [h] at hvalue
    cases hvalue
  · intro value stop rest hvalue
    rw [h] at hvalue
    cases hvalue

theorem EntryText.recovers {name : String} {v : Value} (h : EntryText limit entry name v) :
    Recovers limit entry := by
  have hread {value : List Char} {stop : Char} (hvalue : value? entry = some value)
      (hstop : isEntryEnd stop = true) : ∃ left,
        TypeExpr.readLiteral limit limit.toNat (value ++ [stop]) = .ok (some v, left) := by
    obtain ⟨name', rest, text, hnamed, hcolon, rfl⟩ := exists_of_value? hvalue
    obtain ⟨-, left, hleft, -⟩ := h.readLiteral hstop hnamed hcolon []
    exact ⟨left, hleft⟩
  constructor
  · intro value stop failure hvalue hstop hfailure
    obtain ⟨left, hleft⟩ := hread hvalue hstop
    cases hleft.symm.trans hfailure
  · intro value stop rest hvalue hstop hnone
    obtain ⟨left, hleft⟩ := hread hvalue hstop
    cases hleft.symm.trans hnone

/-- Wherever in such a value the reading gives up, the skipping comes to the end of the entry. -/
theorem recovers_of_simple (hentry : Balanced false entry) (hvalue : value? entry = some value)
    (hsimple : ∀ c ∈ value, isSimple c = true) (hlong : ¬ Text.HasLongNumber value) :
    Recovers limit entry := by
  have hcloses : Closes 0 value := by
    obtain ⟨name, rest, text, hnamed, hcolon, rfl⟩ := exists_of_value? hvalue
    exact ⟨hsimple, (value_suffix (hentry.passes 0 nofun) hnamed hcolon).2⟩
  constructor
  · intro value' stop failure hvalue' hstop hfailure
    cases hvalue.symm.trans hvalue'
    have htracks : TypeExpr.TracksText [] (value ++ [stop])
        (TypeExpr.readLiteral limit limit.toNat (value ++ [stop]))
        (TypeExpr.readLiteral limit limit.toNat (value ++ [stop] ++ [])) :=
      TypeExpr.tracks_readLiteral limit limit.toNat (value ++ [stop])
    refine hlong ((htracks.failure failure hfailure).of_concat ?_)
    rw [isEntryEnd, Bool.or_eq_true, beq_iff_eq, beq_iff_eq] at hstop
    rcases hstop with rfl | rfl <;> decide
  · intro value' stop rest hvalue' hstop hnone
    cases hvalue.symm.trans hvalue'
    obtain ⟨left, hleft, rfl⟩ := leavesEnd_literal limit _ hcloses hstop hnone
    exact (hcloses.suffix hleft).skipEntry hstop

end TypeGrammar

end AppSpec
