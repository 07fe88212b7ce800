import AppSpec.TypeExpr.Parser
import Mathlib

/-!
Taking a text apart, and a longer one that it begins: what is split off in front of the end of the
shorter text is split off the longer one as well.
-/

namespace AppSpec

namespace Text

variable {cs more : List Char}

theorem skipBlanks_suffix (cs : List Char) : skipBlanks cs <:+ cs := List.dropWhile_suffix _

theorem suffix_of_skipBlanks {c : Char} {rest : List Char} (h : skipBlanks cs = c :: rest) :
    rest <:+ cs :=
  (List.suffix_cons c rest).trans (h ▸ skipBlanks_suffix cs)

theorem dropWhile_more {p : Char → Bool} (h : cs.dropWhile p ≠ []) (more : List Char) :
    (cs ++ more).dropWhile p = cs.dropWhile p ++ more := by
  rw [List.dropWhile_append, if_neg (by simpa using h)]

theorem skipBlanks_more (h : skipBlanks cs ≠ []) (more : List Char) :
    skipBlanks (cs ++ more) = skipBlanks cs ++ more := dropWhile_more h more

theorem trim_prefix_skipBlanks (cs : List Char) : trim cs <+: skipBlanks cs := by
  have h := List.reverse_prefix.mpr (skipBlanks_suffix (skipBlanks cs).reverse)
  rwa [List.reverse_reverse] at h

theorem trim_infix (cs : List Char) : trim cs <:+: cs :=
  (trim_prefix_skipBlanks cs).isInfix.trans (skipBlanks_suffix cs).isInfix

theorem trim_prefix_more (h : trim cs ≠ []) (more : List Char) : trim cs <+: trim (cs ++ more) := by
  have hskip : skipBlanks cs ≠ [] := by
    intro hnil
    rw [trim, hnil] at h
    exact h rfl
  rw [trim, trim, skipBlanks_more hskip, trimEnd, trimEnd, List.reverse_append]
  have hcut : skipBlanks (skipBlanks cs).reverse <:+ skipBlanks (more.reverse ++ (skipBlanks cs).reverse) := by
    cases hmore : skipBlanks more.reverse with
    | nil =>
        have hblank : (more.reverse.dropWhile isBlank).isEmpty = true := List.isEmpty_iff.mpr hmore
        have hdrop : skipBlanks (more.reverse ++ (skipBlanks cs).reverse) =
            skipBlanks (skipBlanks cs).reverse := by
          rw [skipBlanks, List.dropWhile_append, if_pos hblank]
          rfl
        exact hdrop ▸ List.suffix_refl _
    | cons c rest =>
        rw [skipBlanks_more (by rw [hmore]; simp)]
        exact (skipBlanks_suffix _).trans (List.suffix_append _ _)
  exact List.reverse_prefix.mpr hcut

end Text

namespace TypeText

variable {cs : List Char}

theorem splitName_suffix (cs : List Char) : (splitName cs).2 <:+ cs :=
  ⟨_, splitName_append cs⟩

theorem splitName_more (h : (splitName cs).2 ≠ []) (more : List Char) :
    splitName (cs ++ more) = ((splitName cs).1, (splitName cs).2 ++ more) := by
  cases cs with
  | nil => simp [splitName] at h
  | cons c cs =>
      cases hc : isNameStart c with
      | false => simp [splitName, hc]
      | true =>
          simp only [splitName, hc, if_true] at h
          have hlong : (cs.takeWhile isNameChar).length ≠ cs.length := by
            intro hlen
            have hsplit := congrArg List.length (List.takeWhile_append_dropWhile (p := isNameChar) (l := cs))
            rw [List.length_append, hlen] at hsplit
            exact h (List.length_eq_zero_iff.mp (by omega))
          simp only [splitName, hc, if_true, List.cons_append, List.takeWhile_append, if_neg hlong,
            Text.dropWhile_more h]

theorem splitQuoted_suffix (quote : Char) (cs : List Char) : (splitQuoted quote cs).2 <:+ cs := by
  fun_induction splitQuoted quote cs with
  | case1 => exact List.suffix_refl _
  | case2 c rest text after hrest ih =>
      rw [hrest] at ih
      exact ih.trans ⟨['\\', c], rfl⟩
  | case3 rest => exact List.suffix_cons _ _
  | case4 c rest _ hne text after hrest ih =>
      rw [hrest] at ih
      exact ih.trans (List.suffix_cons _ _)

theorem splitQuoted_more {quote : Char} (h : (splitQuoted quote cs).2 ≠ []) (more : List Char) :
    splitQuoted quote (cs ++ more) =
      ((splitQuoted quote cs).1, (splitQuoted quote cs).2 ++ more) := by
  fun_induction splitQuoted quote cs with
  | case1 => exact absurd rfl h
  | case2 c rest text after hrest ih =>
      rw [hrest] at ih
      simp [splitQuoted, ih h]
  | case3 rest hescape =>
      cases rest with
      | nil => exact absurd rfl h
      | cons d rest =>
          have hc : quote ≠ '\\' := fun heq => hescape d rest heq rfl
          simp [splitQuoted, hc]
  | case4 c rest hescape hne text after hrest ih =>
      cases rest with
      | nil =>
          cases hrest
          exact absurd rfl h
      | cons d rest =>
          have hc : c ≠ '\\' := fun heq => hescape d rest heq rfl
          rw [hrest] at ih
          have ih := ih h
          rw [List.cons_append] at ih
          simp [splitQuoted, hc, hne, ih]

theorem splitBare_more {stop : Char → Bool} {nesting : Nat}
    (h : (splitBare stop nesting cs).2 ≠ []) (more : List Char) :
    splitBare stop nesting (cs ++ more) =
      ((splitBare stop nesting cs).1, (splitBare stop nesting cs).2 ++ more) := by
  induction cs generalizing nesting with
  | nil => exact absurd rfl h
  | cons c cs ih =>
      rw [List.cons_append, splitBare, splitBare]
      rw [splitBare] at h
      split at h
      · next hopen =>
          rw [if_pos hopen, if_pos hopen, ih h]
      · next hopen =>
          rw [if_neg hopen, if_neg hopen]
          split at h
          · next hclose => rw [if_pos hclose, if_pos hclose, ih h]
          · next hclose =>
              rw [if_neg hclose, if_neg hclose]
              split at h
              · next hstop =>
                  rw [if_pos hstop, if_pos hstop]
                  rfl
              · next hstop => rw [if_neg hstop, if_neg hstop, ih h]

theorem splitBare_prefix {stop : Char → Bool} {nesting : Nat}
    (h : (splitBare stop nesting cs).2 = []) (more : List Char) :
    ∃ added, (splitBare stop nesting (cs ++ more)).1 = cs ++ added := by
  induction cs generalizing nesting with
  | nil => exact ⟨_, rfl⟩
  | cons c cs ih =>
      rw [List.cons_append, splitBare]
      rw [splitBare] at h
      split at h
      · next hopen =>
          obtain ⟨added, ih⟩ := ih h
          exact ⟨added, by rw [if_pos hopen]; exact congrArg (c :: ·) ih⟩
      · next hopen =>
          rw [if_neg hopen]
          split at h
          · next hclose =>
              obtain ⟨added, ih⟩ := ih h
              exact ⟨added, by rw [if_pos hclose]; exact congrArg (c :: ·) ih⟩
          · next hclose =>
              rw [if_neg hclose]
              split at h
              · cases h
              · next hstop =>
                  obtain ⟨added, ih⟩ := ih h
                  exact ⟨added, by rw [if_neg hstop]; exact congrArg (c :: ·) ih⟩

theorem skipEntry_suffix (nesting : Nat) (quoting : Quoting) (cs : List Char) :
    skipEntry nesting quoting cs <:+ cs := by
  fun_induction skipEntry nesting quoting cs
  all_goals first
    | exact List.suffix_refl _
    | exact List.IsSuffix.trans ‹_› (List.suffix_cons _ _)

theorem skipEntry_more {nesting : Nat} {quoting : Quoting} (h : skipEntry nesting quoting cs ≠ [])
    (more : List Char) :
    skipEntry nesting quoting (cs ++ more) = skipEntry nesting quoting cs ++ more := by
  fun_induction skipEntry nesting quoting cs <;> simp_all [skipEntry]

end TypeText

end AppSpec
