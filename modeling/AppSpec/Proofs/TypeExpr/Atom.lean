import AppSpec.Proofs.Decimal.ReadBack
import AppSpec.TypeExpr.Parser
import AppSpec.TypeExpr.Printer

/-!
Characters of texts without quotes. None of them is blank, a bracket, a quote or a stop, so such a
text is cut out whole wherever it stands.
-/

namespace AppSpec

namespace TypeText

theorem le_iff_toNat {c d : Char} : c ≤ d ↔ c.toNat ≤ d.toNat := by
  rw [Char.le_def, UInt32.le_iff_toNat_le]
  rfl

theorem eq_iff_toNat {c d : Char} : c = d ↔ c.toNat = d.toNat :=
  ⟨congrArg _, Char.toNat_inj.mp⟩

def isAtom (c : Char) : Bool := Literal.isWordChar c || c == '+'

def AllAtoms (cs : List Char) : Prop := ∀ c ∈ cs, isAtom c = true

theorem isWordChar_iff (c : Char) :
    Literal.isWordChar c = true ↔
      (97 ≤ c.toNat ∧ c.toNat ≤ 122) ∨ (65 ≤ c.toNat ∧ c.toNat ≤ 90) ∨
        (48 ≤ c.toNat ∧ c.toNat ≤ 57) ∨ c.toNat = 95 ∨ c.toNat = 45 ∨ c.toNat = 46 := by
  simp only [Literal.isWordChar, Literal.isWordStart, Literal.isLetter, Literal.isAsciiDigit,
    Bool.or_eq_true, Bool.and_eq_true, decide_eq_true_eq, beq_iff_eq, le_iff_toNat,
    eq_iff_toNat, Char.reduceToNat]
  omega

theorem toNat_of_isAtom {c : Char} (h : isAtom c = true) :
    43 ≤ c.toNat ∧ c.toNat ≤ 122 ∧ c.toNat ≠ 44 ∧ c.toNat ≠ 58 ∧ c.toNat ≠ 63 ∧
      c.toNat ≠ 91 ∧ c.toNat ≠ 92 ∧ c.toNat ≠ 93 := by
  rw [isAtom, Bool.or_eq_true, isWordChar_iff, beq_iff_eq, eq_iff_toNat] at h
  simp only [Char.reduceToNat] at h
  omega

theorem isBlank_of_isAtom {c : Char} (h : isAtom c = true) : Text.isBlank c = false := by
  have := toNat_of_isAtom h
  simp only [Text.isBlank, Bool.or_eq_false_iff, Bool.and_eq_false_iff, decide_eq_false_iff_not,
    beq_eq_false_iff_ne]
  omega

theorem ne_of_isAtom {c d : Char} (h : isAtom c = true) (hd : isAtom d = false) : c ≠ d := by
  rintro rfl
  rw [h] at hd
  cases hd

theorem isAtom_of_isWordChar {c : Char} (h : Literal.isWordChar c = true) : isAtom c = true := by
  rw [isAtom, h, Bool.true_or]

theorem isAtom_of_isDigit {c : Char} (h : c.isDigit = true) : isAtom c = true := by
  obtain ⟨hlow, hhigh⟩ := Text.toNat_bounds_of_isDigit h
  exact isAtom_of_isWordChar ((isWordChar_iff c).mpr (by omega))

theorem AllAtoms.append {cs ds : List Char} (hc : AllAtoms cs) (hd : AllAtoms ds) :
    AllAtoms (cs ++ ds) := by
  intro c h
  rcases List.mem_append.mp h with h | h
  · exact hc c h
  · exact hd c h

theorem AllAtoms.cons {c : Char} {cs : List Char} (hc : isAtom c = true) (h : AllAtoms cs) :
    AllAtoms (c :: cs) := by
  intro d hd
  rcases List.mem_cons.mp hd with rfl | hd
  · exact hc
  · exact h d hd

theorem allAtoms_nil : AllAtoms [] := fun _ h => nomatch h

theorem allAtoms_of_allDigits {cs : List Char} (h : Text.AllDigits cs) : AllAtoms cs :=
  fun c hc => isAtom_of_isDigit (h c hc)

/-! ### Names -/

theorem isWordChar_of_isNameChar {c : Char} (h : isNameChar c = true) :
    Literal.isWordChar c = true := by
  simp only [isNameChar, isNameStart, Literal.isWordChar, Literal.isWordStart, Bool.or_eq_true] at *
  tauto

theorem isNameChar_of_isNameStart {c : Char} (h : isNameStart c = true) : isNameChar c = true := by
  rw [isNameChar, h, Bool.true_or]

def NoNameHead (cs : List Char) : Prop := ∀ c ∈ cs.head?, isNameChar c = false

theorem splitName_cons {c : Char} {cs rest : List Char} (hc : isNameStart c = true)
    (hcs : ∀ d ∈ cs, isNameChar d = true) (hrest : NoNameHead rest) :
    splitName (c :: cs ++ rest) = (c :: cs, rest) := by
  rw [List.cons_append, splitName, if_pos hc, List.takeWhile_append_of_pos hcs,
    List.dropWhile_append_of_pos hcs]
  cases rest with
  | nil => simp
  | cons d rest =>
      have hd : isNameChar d = false := hrest d rfl
      simp [hd]

/-! ### Blanks -/

theorem skipBlanks_cons {c : Char} (h : Text.isBlank c = false) (cs : List Char) :
    Text.skipBlanks (c :: cs) = c :: cs := by
  rw [Text.skipBlanks, List.dropWhile_cons, h]
  rfl

@[simp]
theorem skipBlanks_space (cs : List Char) : Text.skipBlanks (' ' :: cs) = Text.skipBlanks cs := by
  rw [Text.skipBlanks, List.dropWhile_cons]
  rfl

theorem trim_atoms {cs tail : List Char} (h : AllAtoms cs) (hne : cs ≠ [])
    (htail : ∀ c ∈ tail, Text.isBlank c = true) : Text.trim (cs ++ tail) = cs := by
  have hskip : Text.skipBlanks (cs ++ tail) = cs ++ tail := by
    cases cs with
    | nil => exact absurd rfl hne
    | cons c cs => exact skipBlanks_cons (isBlank_of_isAtom (h c (by simp))) _
  have htail' : ∀ c ∈ tail.reverse, Text.isBlank c = true := fun c hc =>
    htail c (List.mem_reverse.mp hc)
  have hend : Text.skipBlanks cs.reverse = cs.reverse := by
    cases hr : cs.reverse with
    | nil => rfl
    | cons c rest =>
        have hc : c ∈ cs := List.mem_reverse.mp (by simp [hr])
        exact skipBlanks_cons (isBlank_of_isAtom (h c hc)) _
  rw [Text.trim, hskip, Text.trimEnd, List.reverse_append, Text.skipBlanks,
    List.dropWhile_append_of_pos htail', ← Text.skipBlanks, hend, List.reverse_reverse]

/-! ### Texts without quotes -/

def StopHead (stop : Char → Bool) (cs : List Char) : Prop :=
  ∃ c rest, cs = c :: rest ∧ stop c = true ∧ c ≠ '(' ∧ c ≠ '['

theorem splitBare_append_stop {stop : Char → Bool} {cs rest : List Char}
    (h : ∀ c ∈ cs, c ≠ '(' ∧ c ≠ '[' ∧ stop c = false) (hrest : StopHead stop rest) :
    splitBare stop 0 (cs ++ rest) = (cs, rest) := by
  induction cs with
  | nil =>
      obtain ⟨c, rest, rfl, hstop, hparen, hbracket⟩ := hrest
      simp [splitBare, hparen, hbracket, hstop]
  | cons c cs ih =>
      obtain ⟨hparen, hbracket, hstop⟩ := h c (by simp)
      have ih := ih fun d hd => h d (by simp [hd])
      simp [splitBare, hparen, hbracket, hstop, ih]

theorem splitBare_word {stop : Char → Bool} (hstop : ∀ c, isAtom c = true → stop c = false)
    (hline : stop '\n' = false) {word tail rest : List Char} (hword : AllAtoms word)
    (hne : word ≠ []) (htail : ∀ c ∈ tail, c = '\n') (hrest : StopHead stop rest) :
    splitBare stop 0 (word ++ tail ++ rest) = (word ++ tail, rest) ∧
      Text.trim (word ++ tail) = word := by
  refine ⟨splitBare_append_stop (fun c hc => ?_) hrest, trim_atoms hword hne fun c hc => ?_⟩
  · rcases List.mem_append.mp hc with hc | hc
    · have hatom := hword c hc
      exact ⟨ne_of_isAtom hatom (by decide), ne_of_isAtom hatom (by decide), hstop c hatom⟩
    · rw [htail c hc]
      exact ⟨by decide, by decide, hline⟩
  · rw [htail c hc]
    decide

theorem splitQuoted_flatMap (cs rest : List Char) :
    splitQuoted '"' (cs.flatMap Literal.quoteChar ++ '"' :: rest) = (some cs, rest) := by
  induction cs with
  | nil => rfl
  | cons c cs ih =>
      rw [List.flatMap_cons, List.append_assoc, Literal.quoteChar]
      split
      · next h =>
          subst h
          simp [splitQuoted, ih]
      · split
        · next h =>
            subst h
            simp [splitQuoted, ih]
        · next hback hquote =>
            rw [List.singleton_append, splitQuoted, if_neg hquote, ih]
            · rfl
            · rintro d rest' rfl
              exact absurd rfl hback

end TypeText

end AppSpec
