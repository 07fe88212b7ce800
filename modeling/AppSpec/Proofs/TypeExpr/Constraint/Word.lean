import AppSpec.Proofs.TypeExpr.Constraint.Passing
import AppSpec.Proofs.TypeExpr.LiteralText
import AppSpec.Proofs.TypeExpr.Prefix

/-!
What reads as a scalar without quotes. It has no brackets, commas or quotes, and blanks behind it
change nothing.
-/

namespace AppSpec

namespace Text

variable {cs tail : List Char}

theorem skipBlanks_of_trim (h : trim cs = cs) :
    skipBlanks cs = cs ∧ skipBlanks cs.reverse = cs.reverse := by
  have hlength : cs.length ≤ (skipBlanks cs).length := by
    have hle := skipBlanks_length_le (skipBlanks cs).reverse
    rw [List.length_reverse, ← List.length_reverse, ← trimEnd, ← trim, h] at hle
    exact hle
  have hskip : skipBlanks cs = cs :=
    (List.dropWhile_suffix isBlank).eq_of_length_le hlength
  rw [trim, hskip, trimEnd] at h
  exact ⟨hskip, List.reverse_eq_iff.mp h⟩

theorem trim_trim (cs : List Char) : trim (trim cs) = trim cs := by
  have hend : skipBlanks (trim cs).reverse = (trim cs).reverse := by
    rw [trim, trimEnd, List.reverse_reverse, skipBlanks_skipBlanks]
  have hskip : skipBlanks (trim cs) = trim cs := by
    obtain ⟨behind, hbehind⟩ := trim_prefix_skipBlanks cs
    cases htrim : trim cs with
    | nil => rfl
    | cons c rest =>
        rw [htrim] at hbehind
        exact TypeText.skipBlanks_cons (skipBlanks_head hbehind.symm) rest
  rw [trim, hskip, trimEnd, hend, List.reverse_reverse]

theorem trim_append (h : trim cs = cs) (hne : cs ≠ []) (htail : AllBlank tail) :
    trim (cs ++ tail) = cs := by
  obtain ⟨hskip, hend⟩ := skipBlanks_of_trim h
  have hlong : skipBlanks (cs ++ tail) = cs ++ tail := by
    rw [skipBlanks_more (by rwa [hskip]), hskip]
  have htail : AllBlank tail.reverse := fun c hc => htail c (List.mem_reverse.mp hc)
  rw [trim, hlong, trimEnd, List.reverse_append, htail.skipBlanks, hend, List.reverse_reverse]

end Text

namespace Numeral

variable {cs : List Char} {r : Numeral}

/-- The characters that numbers are written with. -/
def isNumeric (c : Char) : Bool :=
  Text.isDigit c || c == '-' || c == '+' || c == '.' || c == 'e' || c == 'E'

theorem isNumeric_splitSign (h : (splitSign cs).2.all isNumeric) : cs.all isNumeric := by
  unfold splitSign at h
  split at h
  · exact h
  · exact h
  · exact h

theorem isNumeric_digits (h : cs.all Text.isDigit = true) : cs.all isNumeric := by
  rw [List.all_eq_true] at h ⊢
  intro c hc
  rw [isNumeric, h c hc]
  rfl

theorem isNumeric_integer? (h : integer? cs = some r) : cs.all isNumeric := by
  unfold integer? at h
  dsimp only at h
  split at h
  · next hdigits =>
      rw [Bool.and_eq_true] at hdigits
      exact isNumeric_splitSign (isNumeric_digits hdigits.2)
  · cases h

theorem isNumeric_exponent? {e : Int} (h : exponent? cs = some e) : cs.all isNumeric := by
  unfold exponent? at h
  split at h
  · rfl
  · next c cs =>
      split at h
      · next hc =>
          split at h
          · next hint =>
              have hdigits := isNumeric_integer? hint
              rw [List.all_cons, hdigits]
              rw [Bool.or_eq_true, beq_iff_eq, beq_iff_eq] at hc
              rcases hc with rfl | rfl <;> decide
          · cases h
      · cases h

theorem isNumeric_split (h : (cs.dropWhile Text.isDigit).all isNumeric) : cs.all isNumeric := by
  have htake : (cs.takeWhile Text.isDigit).all isNumeric :=
    isNumeric_digits List.all_takeWhile
  rw [← List.takeWhile_append_dropWhile (p := Text.isDigit) (l := cs), List.all_append, htake, h]
  rfl

theorem isNumeric_real? (h : real? cs = some r) : cs.all isNumeric := by
  unfold real? at h
  dsimp only at h
  refine isNumeric_splitSign (isNumeric_split ?_)
  split at h
  · next rest heq =>
      rw [heq, List.all_cons, Bool.and_eq_true]
      refine ⟨by decide, isNumeric_split ?_⟩
      split at h
      · next hnil => rw [hnil]; rfl
      · split at h
        · cases h
        · obtain ⟨e, he, -⟩ := Option.map_eq_some_iff.mp h
          exact isNumeric_exponent? he
  · split at h
    · cases h
    · obtain ⟨e, he, -⟩ := Option.map_eq_some_iff.mp h
      exact isNumeric_exponent? he

end Numeral

namespace Literal

open TypeText (isMark isMark_eq_false)

variable {cs : List Char}

theorem isMark_of_isAtom {c : Char} (h : TypeText.isAtom c = true) : isMark c = false :=
  isMark_eq_false (p := TypeText.isAtom) (by decide) h

theorem isAtom_of_toLower {c d : Char} (h : c.toLower = d) (hd : 97 ≤ d.toNat ∧ d.toNat ≤ 122) :
    TypeText.isAtom c = true := by
  refine TypeText.isAtom_of_isWordChar ((TypeText.isWordChar_iff c).mpr ?_)
  rcases toLower_eq h with rfl | hup
  · exact .inl hd
  · omega

theorem isAtom_of_map {letters : List Char} (h : cs.map Char.toLower = letters)
    (hletters : ∀ d ∈ letters, 97 ≤ d.toNat ∧ d.toNat ≤ 122) :
    ∀ c ∈ cs, TypeText.isAtom c = true := fun _ hc =>
  isAtom_of_toLower rfl (hletters _ (h ▸ List.mem_map_of_mem hc))

theorem isAtom_keyword? {s : Scalar} (h : keyword? cs = some s) :
    ∀ c ∈ cs, TypeText.isAtom c = true := by
  rw [keyword?_eq] at h
  split at h
  · next hmap => exact isAtom_of_map hmap (by simp)
  · split at h
    · next hmap => exact isAtom_of_map hmap (by simp)
    · split at h
      · next hmap =>
          rcases hmap with hmap | hmap
          · exact isAtom_of_map hmap (by simp)
          · exact isAtom_of_map hmap (by simp)
      · cases h

theorem upToLineEnd_of_trim (h : Text.trim cs = cs) : upToLineEnd cs = cs := by
  rcases upToLineEnd_cases cs with ⟨line, rfl, -⟩ | ⟨hup, -⟩
  · have hend := (Text.skipBlanks_of_trim h).2
    rw [List.reverse_append] at hend
    exact absurd (Text.skipBlanks_head hend) (by decide)
  · exact hup

/-- A text without blanks at its ends that reads as a scalar. -/
structure IsWord (cs : List Char) (s : Scalar) : Prop where
  trimmed : Text.trim cs = cs
  reads : read cs = .ok (some s)

namespace IsWord

variable {s : Scalar}

theorem ne_nil (h : IsWord cs s) : cs ≠ [] := by
  rintro rfl
  cases h.reads

theorem unmarked (h : IsWord cs s) : ∀ c ∈ cs, isMark c = false := by
  have hread := h.reads
  rw [read] at hread
  split at hread
  · next hk => exact fun c hc => isMark_of_isAtom (isAtom_keyword? hk c hc)
  · rw [upToLineEnd_of_trim h.trimmed] at hread
    dsimp only at hread
    have hnumeric (hcs : cs.all Numeral.isNumeric) : ∀ c ∈ cs, isMark c = false := fun c hc =>
      isMark_eq_false (p := Numeral.isNumeric) (by decide) (List.all_eq_true.mp hcs c hc)
    split at hread
    · next r hnumber =>
        cases hint : Numeral.integer? cs with
        | some i => exact hnumeric (Numeral.isNumeric_integer? hint)
        | none =>
            rw [hint, Option.none_or] at hnumber
            exact hnumeric (Numeral.isNumeric_real? hnumber)
    · split at hread
      · next hbare => exact fun c hc => isMark_of_isAtom ((allAtoms_of_isBareWord hbare).1 c hc)
      · cases hread

end IsWord

end Literal

end AppSpec
