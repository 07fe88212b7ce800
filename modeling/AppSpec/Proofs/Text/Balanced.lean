import AppSpec.Text.Balanced
import Mathlib

/-!
The language of balanced texts: a pair of brackets is around a balanced text, a pair of quotes
around any text without that quote. The reader that keeps the closers it is owed accepts just these
texts.
-/

namespace AppSpec.Text

def brackets : List (Char × Char) := [('(', ')'), ('[', ']'), ('\x7b', '\x7d')]

def quoteMarks : List Char := ['\'', '"']

/-- Neither a bracket nor a quote. -/
def IsPlain (c : Char) : Prop := c ∉ quoteMarks ∧ ∀ p ∈ brackets, c ≠ p.1 ∧ c ≠ p.2

inductive Balanced : List Char → Prop
  | nil : Balanced []
  | plain {c : Char} {cs : List Char} (hc : IsPlain c) (more : Balanced cs) : Balanced (c :: cs)
  | bracketed {opener closer : Char} {inner cs : List Char} (hpair : (opener, closer) ∈ brackets)
      (within : Balanced inner) (more : Balanced cs) : Balanced (opener :: inner ++ closer :: cs)
  | quoted {quote : Char} {run cs : List Char} (hquote : quote ∈ quoteMarks) (hrun : quote ∉ run)
      (more : Balanced cs) : Balanced (quote :: run ++ quote :: cs)

/-! ### The reader, by the kind of a character -/

theorem isQuoteMark_iff {c : Char} : isQuoteMark c = true ↔ c ∈ quoteMarks := by
  simp [isQuoteMark, quoteMarks]

theorem closerOf?_eq_some_iff {c closer : Char} :
    closerOf? c = some closer ↔ (c, closer) ∈ brackets := by
  simp only [brackets, List.mem_cons, Prod.mk.injEq, List.not_mem_nil, or_false]
  unfold closerOf?
  split
  · next h => simp [h, eq_comm]
  · split
    · next h => simp [h, eq_comm]
    · split
      · next h => simp [h, eq_comm]
      · next hround hsquare hcurly => simp [hround, hsquare, hcurly]

theorem isCloser_iff {c : Char} : isCloser c = true ↔ ∃ p ∈ brackets, c = p.2 := by
  simp [isCloser, brackets, or_assoc]

/-- The three kinds of a bracket or a quote do not overlap. -/
theorem kinds_apart {opener closer : Char} (h : (opener, closer) ∈ brackets) :
    isQuoteMark opener = false ∧ isQuoteMark closer = false ∧ closerOf? closer = none := by
  simp only [brackets, List.mem_cons, Prod.mk.injEq, List.not_mem_nil, or_false] at h
  rcases h with ⟨rfl, rfl⟩ | ⟨rfl, rfl⟩ | ⟨rfl, rfl⟩ <;> decide

theorem isPlain_iff {c : Char} :
    IsPlain c ↔ isQuoteMark c = false ∧ closerOf? c = none ∧ isCloser c = false := by
  have hopener : closerOf? c = none ↔ ∀ p ∈ brackets, c ≠ p.1 := by
    rw [Option.eq_none_iff_forall_ne_some]
    constructor
    · rintro h ⟨opener, closer⟩ hp rfl
      exact h closer (closerOf?_eq_some_iff.mpr hp)
    · intro h closer hc
      exact h (c, closer) (closerOf?_eq_some_iff.mp hc) rfl
  rw [IsPlain, hopener, ← Bool.not_eq_true, isQuoteMark_iff, ← Bool.not_eq_true, isCloser_iff]
  simp only [forall_and, not_exists, not_and, ne_eq]

section Reader

variable {owed cs : List Char} {c closer quote : Char}

theorem balancedFrom_plain (h : IsPlain c) :
    balancedFrom owed none (c :: cs) = balancedFrom owed none cs := by
  obtain ⟨hquote, hopener, hcloser⟩ := isPlain_iff.mp h
  simp [balancedFrom, hquote, hopener, hcloser]

theorem balancedFrom_opener (h : (c, closer) ∈ brackets) :
    balancedFrom owed none (c :: cs) = balancedFrom (closer :: owed) none cs := by
  simp [balancedFrom, (kinds_apart h).1, closerOf?_eq_some_iff.mpr h]

theorem balancedFrom_closer (h : (c, closer) ∈ brackets) :
    balancedFrom (closer :: owed) none (closer :: cs) = balancedFrom owed none cs := by
  obtain ⟨-, hquote, hopener⟩ := kinds_apart h
  have hcloser : isCloser closer = true := isCloser_iff.mpr ⟨_, h, rfl⟩
  simp [balancedFrom, hquote, hopener, hcloser]

theorem balancedFrom_quote (h : quote ∈ quoteMarks) :
    balancedFrom owed none (quote :: cs) = balancedFrom owed (some quote) cs := by
  simp [balancedFrom, isQuoteMark_iff.mpr h]

theorem balancedFrom_run {run : List Char} (h : quote ∉ run) :
    balancedFrom owed (some quote) (run ++ quote :: cs) = balancedFrom owed none cs := by
  induction run with
  | nil => simp [balancedFrom]
  | cons c run ih =>
      obtain ⟨hc, hrun⟩ := not_or.mp (mt List.mem_cons.mpr h)
      rw [List.cons_append, balancedFrom, if_neg (Ne.symm hc), ih hrun]

end Reader

/-- A balanced text changes nothing in what is owed. -/
theorem Balanced.balancedFrom_append {cs : List Char} (h : Balanced cs) (owed rest : List Char) :
    balancedFrom owed none (cs ++ rest) = balancedFrom owed none rest := by
  induction h generalizing owed rest with
  | nil => rfl
  | plain hc _ ih => rw [List.cons_append, balancedFrom_plain hc, ih]
  | bracketed hpair _ _ ihWithin ih =>
      rw [List.append_assoc, List.cons_append, balancedFrom_opener hpair, ihWithin,
        List.cons_append, balancedFrom_closer hpair, ih]
  | quoted hquote hrun _ ih =>
      rw [List.append_assoc, List.cons_append, balancedFrom_quote hquote, List.cons_append,
        balancedFrom_run hrun, ih]

/-! ### What the reader accepts -/

/-- The text closes what is owed, each closer behind a balanced text, and is balanced after that. -/
def Settles : List Char → List Char → Prop
  | [], cs => Balanced cs
  | closer :: owed, cs =>
      ∃ inner rest, cs = inner ++ closer :: rest ∧ Balanced inner ∧ Settles owed rest

theorem Settles.prepend {owed cs front : List Char} (h : Settles owed cs)
    (hfront : ∀ cs, Balanced cs → Balanced (front ++ cs)) : Settles owed (front ++ cs) := by
  cases owed with
  | nil => exact hfront cs h
  | cons closer owed =>
      obtain ⟨inner, rest, rfl, hinner, hrest⟩ := h
      exact ⟨front ++ inner, rest, (List.append_assoc ..).symm, hfront inner hinner, hrest⟩

theorem Settles.bracketed {owed cs : List Char} {opener closer : Char}
    (h : Settles (closer :: owed) cs) (hpair : (opener, closer) ∈ brackets) :
    Settles owed (opener :: cs) := by
  obtain ⟨inner, rest, rfl, hinner, hrest⟩ := h
  have hfront (cs : List Char) (hcs : Balanced cs) :
      Balanced ((opener :: inner ++ [closer]) ++ cs) := by
    rw [List.append_assoc]
    exact .bracketed hpair hinner hcs
  simpa using hrest.prepend hfront

theorem Settles.quoted {owed run rest : List Char} {quote : Char} (h : Settles owed rest)
    (hquote : quote ∈ quoteMarks) (hrun : quote ∉ run) :
    Settles owed (quote :: (run ++ quote :: rest)) := by
  have hfront (cs : List Char) (hcs : Balanced cs) :
      Balanced ((quote :: run ++ [quote]) ++ cs) := by
    rw [List.append_assoc]
    exact .quoted hquote hrun hcs
  simpa using h.prepend hfront

/-- What is left to be read, outside quotes or inside them, where the reader accepts. -/
def Accepted (owed : List Char) : Option Char → List Char → Prop
  | none, cs => Settles owed cs
  | some quote, cs => ∃ run rest, cs = run ++ quote :: rest ∧ quote ∉ run ∧ Settles owed rest

theorem accepted_of_balancedFrom {owed cs : List Char} {open? : Option Char}
    (h : balancedFrom owed open? cs = true) : Accepted owed open? cs := by
  induction cs generalizing owed open? with
  | nil =>
      cases open? with
      | some quote => cases h
      | none =>
          obtain rfl := List.isEmpty_iff.mp h
          exact .nil
  | cons c cs ih =>
      cases open? with
      | some quote =>
          rw [balancedFrom] at h
          by_cases hc : c = quote
          · rw [if_pos hc] at h
            exact ⟨[], cs, by rw [hc, List.nil_append], List.not_mem_nil, ih h⟩
          · rw [if_neg hc] at h
            obtain ⟨run, rest, rfl, hrun, hrest⟩ := ih h
            exact ⟨c :: run, rest, rfl, by simp [Ne.symm hc, hrun], hrest⟩
      | none =>
          by_cases hquote : c ∈ quoteMarks
          · rw [balancedFrom_quote hquote] at h
            obtain ⟨run, rest, rfl, hrun, hrest⟩ := ih h
            exact hrest.quoted hquote hrun
          · cases hopener : closerOf? c with
            | some closer =>
                have hpair := closerOf?_eq_some_iff.mp hopener
                rw [balancedFrom_opener hpair] at h
                exact Settles.bracketed (ih h) hpair
            | none =>
                have hnoQuote : isQuoteMark c = false :=
                  Bool.eq_false_iff.mpr (mt isQuoteMark_iff.mp hquote)
                cases hcloser : isCloser c with
                | false =>
                    have hplain := isPlain_iff.mpr ⟨hnoQuote, hopener, hcloser⟩
                    rw [balancedFrom_plain hplain] at h
                    have hrest : Settles owed cs := ih h
                    have hfront (cs : List Char) (hcs : Balanced cs) : Balanced ([c] ++ cs) :=
                      .plain hplain hcs
                    exact hrest.prepend hfront
                | true =>
                    cases owed with
                    | nil => simp [balancedFrom, hnoQuote, hopener, hcloser] at h
                    | cons closer owed =>
                        simp only [balancedFrom, hnoQuote, hopener, hcloser, Bool.false_eq_true,
                          if_false, if_true, Bool.if_false_right, Bool.and_eq_true,
                          decide_eq_true_eq] at h
                        obtain ⟨rfl, h⟩ := h
                        exact ⟨[], cs, rfl, .nil, ih h⟩

theorem isBalanced_iff_balanced (s : String) : isBalanced s = true ↔ Balanced s.toList := by
  constructor
  · intro h
    exact accepted_of_balancedFrom h
  · intro h
    have hread := h.balancedFrom_append [] []
    rw [List.append_nil] at hread
    rw [isBalanced, hread]
    rfl

end AppSpec.Text
