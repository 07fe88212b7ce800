import AppSpec.Proofs.TypeExpr.Grammar.Read

/-!
Text that is passed over on the way to the end of an entry: what it leaves behind is as deep in
brackets as it says, and no entry ends in it.
-/

namespace AppSpec

namespace TypeText

open TypeGrammar (Quoted isQuote_cases)

def isOpening (c : Char) : Bool := c == '[' || c == '\x7b' || c == '('

def isClosing (c : Char) : Bool := c == ']' || c == '\x7d' || c == ')'

/-- The characters that count outside quotes. -/
def isMark (c : Char) : Bool := isOpening c || isClosing c || c == ',' || isQuote c

theorem isMark_eq_false {p : Char → Bool}
    (hp : ['[', '\x7b', '(', ']', '\x7d', ')', ',', '\'', '"'].any p = false) {c : Char}
    (hc : p c = true) : isMark c = false := by
  by_contra hmark
  rw [Bool.not_eq_false] at hmark
  have hmem : c ∈ ['[', '\x7b', '(', ']', '\x7d', ')', ',', '\'', '"'] := by
    simpa only [isMark, isOpening, isClosing, isQuote, Bool.or_eq_true, beq_iff_eq, or_assoc,
      List.mem_cons, List.not_mem_nil, or_false] using hmark
  exact List.any_eq_false.mp hp c hmem hc

theorem ne_of_isMark {c d : Char} (hc : isMark c = false) (hd : isMark d = true) : c ≠ d := by
  rintro rfl
  rw [hc] at hd
  cases hd

/-- Behind this text the nesting is `n` if it is `m` in front, and no entry ends in between. -/
def Passes (m n : Nat) (cs : List Char) : Prop :=
  ∀ rest, skipEntry m .outside (cs ++ rest) = skipEntry n .outside rest

namespace Passes

variable {m n k : Nat} {c : Char} {cs ds : List Char}

theorem nil (n : Nat) : Passes n n [] := fun _ => rfl

theorem append (hcs : Passes m n cs) (hds : Passes n k ds) : Passes m k (cs ++ ds) := fun rest => by
  rw [List.append_assoc, hcs, hds]

theorem cancel (h : Passes m k (cs ++ ds)) (hcs : Passes m n cs) : Passes n k ds := fun rest => by
  rw [← hcs, ← List.append_assoc, h]

theorem plain (n : Nat) (hc : isMark c = false) : Passes n n [c] := fun rest => by
  simp only [isMark, isOpening, isClosing, Bool.or_eq_false_iff] at hc
  simp [skipEntry, hc]

theorem plains (n : Nat) (h : ∀ c ∈ cs, isMark c = false) : Passes n n cs := by
  induction cs with
  | nil => exact .nil n
  | cons c cs ih =>
      obtain ⟨hc, hcs⟩ := List.forall_mem_cons.mp h
      exact (plain n hc).append (ih hcs)

theorem comma (n : Nat) : Passes (n + 1) (n + 1) [','] := fun rest => by
  simp [skipEntry, isQuote]

theorem opening (n : Nat) (hc : isOpening c = true) : Passes n (n + 1) [c] := fun rest => by
  rw [isOpening] at hc
  simp [skipEntry, hc]

theorem closing (n : Nat) (hc : isClosing c = true) : Passes (n + 1) n [c] := fun rest => by
  have hopen : (c == '[' || c == '\x7b' || c == '(') = false := by
    simp only [isClosing, Bool.or_eq_true, beq_iff_eq] at hc
    rcases hc with (rfl | rfl) | rfl <;> decide
  rw [isClosing] at hc
  simp [skipEntry, hopen, hc]

theorem quoted (n : Nat) {quote : Char} (hquote : isQuote quote = true) {body value : List Char}
    (h : Quoted quote body value) : Passes n n (quote :: (body ++ [quote])) := fun rest => by
  have hbody : skipEntry n (.inside quote) (body ++ quote :: rest) = skipEntry n .outside rest := by
    have hback : quote ≠ '\\' := by rcases isQuote_cases hquote with rfl | rfl <;> decide
    induction h with
    | nil => simp [skipEntry, hback]
    | escaped c _ ih => simpa [skipEntry] using ih
    | plain hback hne _ ih => simpa [skipEntry, hback, hne] using ih
  have hopen : skipEntry n .outside (quote :: (body ++ quote :: rest)) =
      skipEntry n (.inside quote) (body ++ quote :: rest) := by
    rcases isQuote_cases hquote with rfl | rfl <;> simp [skipEntry, isQuote]
  rw [List.cons_append, List.append_assoc, List.singleton_append, hopen, hbody]

end Passes

/-- What ends an entry. -/
def isEntryEnd (c : Char) : Bool := c == ',' || c == '\x7d'

variable {c : Char} {cs before rest : List Char}

theorem skipEntry_end (hc : isEntryEnd c = true) (rest : List Char) :
    skipEntry 0 .outside (c :: rest) = c :: rest := by
  rw [isEntryEnd, Bool.or_eq_true, beq_iff_eq, beq_iff_eq] at hc
  rcases hc with rfl | rfl <;> rfl

theorem Passes.not_end (h : Passes 0 0 (c :: cs)) : isEntryEnd c = false := by
  by_contra hc
  have hpassed := h []
  rw [List.append_nil, skipEntry_end (by simpa using hc)] at hpassed
  cases hpassed

/-- What is passed over stands in front of the end of the entry. -/
theorem Passes.exists_left {n : Nat} (hbefore : Passes 0 n before) (hcs : Passes 0 0 cs)
    (hc : isEntryEnd c = true) {more : List Char} (h : before ++ more = cs ++ c :: rest) :
    ∃ left, cs = before ++ left ∧ more = left ++ c :: rest := by
  rcases List.append_eq_append_iff.mp h with hleft | ⟨after, rfl, hafter⟩
  · exact hleft
  · cases after with
    | nil => exact ⟨[], by simp, hafter.symm⟩
    | cons d after =>
        obtain ⟨rfl, -⟩ := List.cons.inj hafter
        -- the entry would end where it is passed over
        have hpassed := (hcs (c :: after)).symm.trans (List.append_nil _ ▸ hbefore [])
        rw [skipEntry_end hc] at hpassed
        simp [skipEntry] at hpassed

end TypeText

namespace TypeGrammar

open TypeText (Passes isMark isOpening isClosing isQuote)

/-- The brackets that belong together. -/
def brackets : List (Char × Char) := [('[', ']'), ('\x7b', '\x7d'), ('(', ')')]

/-- A text whose brackets and quotes are all closed; commas stand in brackets or quotes only, unless
the text itself is nested. -/
inductive Balanced : Bool → List Char → Prop
  | nil {nested : Bool} : Balanced nested []
  | plain {nested : Bool} {c : Char} {cs : List Char} (hc : isMark c = false)
      (h : Balanced nested cs) : Balanced nested (c :: cs)
  | comma {cs : List Char} (h : Balanced true cs) : Balanced true (',' :: cs)
  | quoted {nested : Bool} {quote : Char} {body value cs : List Char}
      (hquote : isQuote quote = true) (hbody : Quoted quote body value) (h : Balanced nested cs) :
      Balanced nested (quote :: (body ++ [quote]) ++ cs)
  | bracketed {nested : Bool} {opener closer : Char} {inner cs : List Char}
      (hpair : (opener, closer) ∈ brackets) (hinner : Balanced true inner)
      (h : Balanced nested cs) : Balanced nested (opener :: (inner ++ [closer]) ++ cs)

theorem isOpening_isClosing {opener closer : Char} (h : (opener, closer) ∈ brackets) :
    isOpening opener = true ∧ isClosing closer = true := by
  simp only [brackets, List.mem_cons, Prod.mk.injEq, List.not_mem_nil, or_false] at h
  rcases h with ⟨rfl, rfl⟩ | ⟨rfl, rfl⟩ | ⟨rfl, rfl⟩ <;> decide

theorem Balanced.passes {nested : Bool} {cs : List Char} (h : Balanced nested cs) (n : Nat)
    (hn : nested = true → 0 < n) : Passes n n cs := by
  induction h generalizing n with
  | nil => exact .nil n
  | plain hc _ ih => exact (Passes.plain n hc).append (ih n hn)
  | comma _ ih =>
      obtain ⟨n, rfl⟩ : ∃ k, n = k + 1 := ⟨n - 1, by have := hn rfl; omega⟩
      exact (Passes.comma n).append (ih _ hn)
  | quoted hquote hbody _ ih => exact (Passes.quoted n hquote hbody).append (ih n hn)
  | bracketed hpair _ _ ihinner ih =>
      obtain ⟨hopen, hclose⟩ := isOpening_isClosing hpair
      have hinner := ihinner (n + 1) fun _ => Nat.succ_pos n
      exact ((Passes.opening n hopen).append (hinner.append (.closing n hclose))).append (ih n hn)

end TypeGrammar

end AppSpec
