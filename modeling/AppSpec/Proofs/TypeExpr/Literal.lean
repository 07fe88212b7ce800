import AppSpec.Proofs.TypeExpr.Atom
import AppSpec.Proofs.TypeExpr.Domain

/-!
What the printed form of a scalar reads as. A text stands without quotes only where it reads as a
text, and then it reads as itself unless it ends in a line feed.
-/

namespace AppSpec

namespace Numeral

theorem real?_of_integer? {cs : List Char} {r : Numeral} (h : integer? cs = some r) :
    real? cs = none := by
  unfold integer? at h
  dsimp only at h
  split at h
  · next hdigits =>
      rw [Bool.and_eq_true, List.all_eq_true] at hdigits
      obtain ⟨htake, hdrop⟩ : (splitSign cs).2.takeWhile Text.isDigit = (splitSign cs).2 ∧
          (splitSign cs).2.dropWhile Text.isDigit = [] := by
        have := hdigits.2
        exact ⟨List.takeWhile_eq_self_iff.mpr this, List.dropWhile_eq_nil_iff.mpr this⟩
      have hne : (splitSign cs).2.isEmpty = false := by simpa using hdigits.1
      simp only [real?, htake, hdrop, hne, Bool.false_eq_true, if_false]
      rfl
  · cases h

theorem integer?_of_real? {cs : List Char} {r : Numeral} (h : real? cs = some r) :
    integer? cs = none := by
  cases hint : integer? cs with
  | none => rfl
  | some i =>
      rw [real?_of_integer? hint] at h
      cases h

theorem real?_isReal {cs : List Char} {r : Numeral} (h : real? cs = some r) :
    ∃ negative digits exponent, r = .real negative digits exponent := by
  unfold real? at h
  dsimp only at h
  split at h
  · split at h
    · split at h
      · cases h
      · cases h
        exact ⟨_, _, _, rfl⟩
    · split at h
      · cases h
      · obtain ⟨e, -, rfl⟩ := Option.map_eq_some_iff.mp h
        exact ⟨_, _, _, rfl⟩
  · split at h
    · cases h
    · obtain ⟨e, -, rfl⟩ := Option.map_eq_some_iff.mp h
      exact ⟨_, _, _, rfl⟩

end Numeral

namespace Literal

open TypeText (isAtom AllAtoms)

theorem upToLineEnd_lineFeed (cs : List Char) : upToLineEnd (cs ++ ['\n']) = cs := by
  rw [upToLineEnd, List.reverse_append]
  show cs.reverse.reverse = cs
  rw [List.reverse_reverse]

theorem upToLineEnd_cases (cs : List Char) :
    (∃ line, cs = line ++ ['\n'] ∧ upToLineEnd cs = line) ∨
      (upToLineEnd cs = cs ∧ ∀ line, cs ≠ line ++ ['\n']) := by
  rcases List.eq_nil_or_concat cs with rfl | ⟨line, c, rfl⟩
  · exact .inr ⟨rfl, by simp⟩
  · by_cases hc : c = '\n'
    · subst hc
      rw [List.concat_eq_append]
      exact .inl ⟨line, rfl, upToLineEnd_lineFeed line⟩
    · refine .inr ⟨?_, ?_⟩
      · rw [List.concat_eq_append, upToLineEnd, List.reverse_append]
        split
        · next heq => exact absurd (List.cons.inj heq).1 hc
        · rfl
      · intro line' h
        rw [List.concat_eq_append] at h
        exact hc (List.singleton_inj.mp (List.append_inj' h rfl).2)

theorem upToLineEnd_atoms {cs : List Char} (h : AllAtoms cs) : upToLineEnd cs = cs := by
  rcases upToLineEnd_cases cs with ⟨line, rfl, -⟩ | ⟨heq, -⟩
  · exact absurd (h '\n' (by simp)) (by decide)
  · exact heq

theorem keyword?_eq (cs : List Char) :
    keyword? cs =
      if cs.map Char.toLower = ['t', 'r', 'u', 'e'] then some (.bool true)
      else if cs.map Char.toLower = ['f', 'a', 'l', 's', 'e'] then some (.bool false)
      else if cs.map Char.toLower = ['n', 'u', 'l', 'l'] ∨
        cs.map Char.toLower = ['n', 'o', 'n', 'e'] then some .null
      else none := by
  have h (ds : List Char) (name : String) (hname : name.toList = ds) :
      (String.ofList (cs.map Char.toLower) == name) = decide (cs.map Char.toLower = ds) := by
    rw [Bool.eq_iff_iff, beq_iff_eq, decide_eq_true_eq, ← hname, ← String.toList_inj,
      String.toList_ofList]
  simp only [keyword?, h _ "true" rfl, h _ "false" rfl, h _ "null" rfl, h _ "none" rfl,
    decide_eq_true_eq, Bool.or_eq_true]
  rfl

theorem keyword?_head {cs : List Char} {s : Scalar} (h : keyword? cs = some s) :
    ∃ c rest, cs = c :: rest ∧ (c.toLower = 't' ∨ c.toLower = 'f' ∨ c.toLower = 'n') := by
  rw [keyword?_eq] at h
  cases cs with
  | nil => cases h
  | cons c rest =>
      refine ⟨c, rest, rfl, ?_⟩
      simp only [List.map_cons, List.cons.injEq] at h
      by_contra hcontra
      simp only [not_or] at hcontra
      obtain ⟨ht, hf, hn⟩ := hcontra
      simp [ht, hf, hn] at h

theorem keyword?_ne_str {cs : List Char} {s : String} : keyword? cs ≠ some (.str s) := by
  rw [keyword?_eq]
  split
  · simp
  · split
    · simp
    · split <;> simp

theorem keyword?_lineFeed (cs : List Char) : keyword? (cs ++ ['\n']) = none := by
  have h (ds : List Char) (hds : ds.getLast? ≠ some '\n') :
      (cs ++ ['\n']).map Char.toLower ≠ ds := by
    rintro rfl
    simp at hds
  rw [keyword?_eq, if_neg (h _ (by decide)), if_neg (h _ (by decide)),
    if_neg (not_or.mpr ⟨h _ (by decide), h _ (by decide)⟩)]

/-! ### Reading -/

theorem integer?_head {cs : List Char} {r : Numeral} (h : Numeral.integer? cs = some r) :
    ∃ c rest, cs = c :: rest ∧ (Text.isDigit c = true ∨ c = '-' ∨ c = '+') := by
  cases cs with
  | nil => cases h
  | cons c rest =>
      refine ⟨c, rest, rfl, ?_⟩
      unfold Numeral.integer? Numeral.splitSign at h
      split at h
      next hsplit =>
        split at hsplit
        · next heq => exact .inr (.inl (List.cons.inj heq).1)
        · next heq => exact .inr (.inr (List.cons.inj heq).1)
        · cases hsplit
          by_contra hcontra
          have hc : Text.isDigit c = false := by
            simpa using fun h => hcontra (.inl h)
          simp [hc] at h

theorem toLower_eq {c d : Char} (h : c.toLower = d) : c = d ∨ c.toNat + 32 = d.toNat := by
  unfold Char.toLower at h
  split at h
  · next hupper =>
      have hle : c.val.toNat ≤ 90 := UInt32.le_iff_toNat_le.mp hupper.2
      right
      rw [← h]
      show c.val.toNat + 32 = (c.val + 32).toNat
      rw [UInt32.toNat_add]
      show c.val.toNat + 32 = (c.val.toNat + 32) % 2 ^ 32
      omega
  · exact .inl h

theorem toLower_of_isDigit {c : Char} (h : Text.isDigit c = true ∨ c = '-' ∨ c = '+') :
    ¬ (c.toLower = 't' ∨ c.toLower = 'f' ∨ c.toLower = 'n') := by
  have hne : ∀ d : Char, (Text.isDigit d || d == '-' || d == '+') = false → c ≠ d := by
    rintro d hd rfl
    simp only [Bool.or_eq_false_iff, beq_eq_false_iff_ne] at hd
    rcases h with h | h | h
    · rw [h] at hd
      cases hd.1.1
    · exact hd.1.2 h
    · exact hd.2 h
  rintro (hc | hc | hc)
  · rcases toLower_eq hc with hc | hc
    · exact hne 't' (by decide) hc
    · exact hne 'T' (by decide) (TypeText.eq_iff_toNat.mpr (Nat.add_right_cancel hc))
  · rcases toLower_eq hc with hc | hc
    · exact hne 'f' (by decide) hc
    · exact hne 'F' (by decide) (TypeText.eq_iff_toNat.mpr (Nat.add_right_cancel hc))
  · rcases toLower_eq hc with hc | hc
    · exact hne 'n' (by decide) hc
    · exact hne 'N' (by decide) (TypeText.eq_iff_toNat.mpr (Nat.add_right_cancel hc))

theorem keyword?_of_integer? {cs : List Char} {r : Numeral}
    (h : Numeral.integer? (upToLineEnd cs) = some r) : keyword? cs = none := by
  cases hk : keyword? cs with
  | none => rfl
  | some s =>
      exfalso
      obtain ⟨c, rest, rfl, hc⟩ := keyword?_head hk
      obtain ⟨d, rest', heq, hd⟩ := integer?_head h
      rcases upToLineEnd_cases (c :: rest) with ⟨line, hline, hup⟩ | ⟨hup, -⟩
      · rw [hline, keyword?_lineFeed] at hk
        cases hk
      · rw [hup] at heq
        cases heq
        exact toLower_of_isDigit hd hc

theorem read_number {cs : List Char} {r : Numeral} (hk : keyword? cs = none)
    (h : (Numeral.integer? (upToLineEnd cs)).or (Numeral.real? (upToLineEnd cs)) = some r) :
    read cs = r.scalar.map some := by
  simp only [read, hk, h]

theorem read_text {cs : List Char} (hk : keyword? cs = none)
    (hint : Numeral.integer? (upToLineEnd cs) = none)
    (hreal : Numeral.real? (upToLineEnd cs) = none) :
    read cs = .ok (if isBareWord (upToLineEnd cs) then some (.str (String.ofList cs)) else none) := by
  simp only [read, hk, hint, hreal, Option.or_none]

theorem scalar_ne_str {r : Numeral} {s : String} : r.scalar.map some ≠ .ok (some (.str s)) := by
  cases r with
  | integer negative digits =>
      rw [Numeral.scalar]
      split
      · intro h
        cases h
      · intro h
        cases h
  | real negative digits exponent =>
      intro h
      cases h

theorem read_eq_str {cs : List Char} {s : String} (h : read cs = .ok (some (.str s))) :
    keyword? cs = none ∧ Numeral.integer? (upToLineEnd cs) = none ∧
      Numeral.real? (upToLineEnd cs) = none ∧ isBareWord (upToLineEnd cs) = true ∧
        s = String.ofList cs := by
  cases hk : keyword? cs with
  | some k =>
      simp only [read, hk, Except.ok.injEq, Option.some.injEq] at h
      rw [h] at hk
      exact absurd hk keyword?_ne_str
  | none =>
      cases hnum : (Numeral.integer? (upToLineEnd cs)).or (Numeral.real? (upToLineEnd cs)) with
      | some r =>
          rw [read_number hk hnum] at h
          exact absurd h scalar_ne_str
      | none =>
          obtain ⟨hint, hreal⟩ := Option.or_eq_none_iff.mp hnum
          rw [read_text hk hint hreal] at h
          split at h
          · next hbare =>
              cases h
              exact ⟨rfl, hint, hreal, hbare, rfl⟩
          · cases h

theorem read_long {cs : List Char} (h : IsLongInteger cs) : read cs = .error .integerTooLong := by
  obtain ⟨negative, digits, hint, hlong⟩ := h
  rw [read_number (r := .integer negative digits) (keyword?_of_integer? hint) (by rw [hint]; rfl),
    Numeral.scalar, if_pos hlong]
  rfl

theorem exists_read {cs : List Char} (h : ¬ IsLongInteger cs) : ∃ r, read cs = .ok r := by
  cases hk : keyword? cs with
  | some k => exact ⟨some k, by simp only [read, hk]⟩
  | none =>
      cases hnum : (Numeral.integer? (upToLineEnd cs)).or (Numeral.real? (upToLineEnd cs)) with
      | none =>
          obtain ⟨hint, hreal⟩ := Option.or_eq_none_iff.mp hnum
          exact ⟨_, read_text hk hint hreal⟩
      | some r =>
          rw [read_number hk hnum]
          cases r with
          | real negative digits exponent => exact ⟨_, rfl⟩
          | integer negative digits =>
              have hshort : ¬ Text.maxIntegerDigits < digits.length := by
                intro hlong
                refine h ⟨negative, digits, ?_, hlong⟩
                cases hint : Numeral.integer? (upToLineEnd cs) with
                | some i =>
                    rw [hint, Option.some_or] at hnum
                    exact hnum
                | none =>
                    rw [hint, Option.none_or] at hnum
                    obtain ⟨_, _, _, hr⟩ := Numeral.real?_isReal hnum
                    cases hr
              rw [Numeral.scalar, if_neg hshort]
              exact ⟨_, rfl⟩

/-! ### Printed scalars -/

theorem toString_toList (n : Int) :
    (toString n).toList = Numeral.signText (decide (n < 0)) ++ Nat.toDigits 10 n.natAbs := by
  rw [Int.toString_eq_repr, Int.repr_eq_if]
  by_cases h : 0 ≤ n
  · have hneg : decide (n < 0) = false := decide_eq_false (by omega)
    rw [if_pos h, hneg, Nat.toList_repr, Int.toNat_of_nonneg h |> congrArg Int.natAbs |>.symm]
    rfl
  · have hneg : decide (n < 0) = true := decide_eq_true (by omega)
    have habs : (-n).toNat = n.natAbs := by omega
    rw [if_neg h, hneg, String.toList_append, Nat.toList_repr, habs]
    rfl

theorem allAtoms_signText (negative : Bool) : AllAtoms (Numeral.signText negative) := by
  cases negative with
  | false => exact TypeText.allAtoms_nil
  | true => exact TypeText.allAtoms_nil.cons (by decide)

theorem read_int {n : Int} (h : Text.integerTooLong n = false) :
    read (toString n).toList = .ok (some (.int n)) := by
  have hdigits := Text.allDigits_toDigits n.natAbs
  have hatoms : AllAtoms (toString n).toList := by
    rw [toString_toList]
    exact (allAtoms_signText _).append (TypeText.allAtoms_of_allDigits hdigits)
  have hint : Numeral.integer? (upToLineEnd (toString n).toList) =
      some (.integer (decide (n < 0)) (Nat.toDigits 10 n.natAbs)) := by
    rw [upToLineEnd_atoms hatoms, toString_toList,
      Numeral.integer?_signText _ hdigits (by simp)]
  have hshort : ¬ Text.maxIntegerDigits < (Nat.toDigits 10 n.natAbs).length := by
    intro hlong
    rw [(Text.integerTooLong_iff n).mpr hlong] at h
    cases h
  rw [read_number (keyword?_of_integer? hint) (by rw [hint]; rfl), Numeral.scalar, if_neg hshort,
    Text.natOfDigits_toDigits]
  have hvalue : Numeral.signed (decide (n < 0)) n.natAbs = n := by
    rw [Numeral.signed]
    split
    · next hneg =>
        have := of_decide_eq_true hneg
        omega
    · next hneg =>
        have : ¬ n < 0 := fun h => hneg (decide_eq_true h)
        omega
  rw [hvalue]
  rfl

theorem allAtoms_exponentText (e : Int) : AllAtoms (Decimal.exponentText e) := by
  have hdigits := TypeText.allAtoms_of_allDigits (Numeral.allDigits_exponent e)
  rw [Decimal.exponentText]
  refine TypeText.AllAtoms.cons (by decide) (TypeText.AllAtoms.cons ?_ hdigits)
  split <;> decide

theorem allAtoms_layout {ds : List Char} (h : Text.AllDigits ds) (point : Int) :
    AllAtoms (Decimal.layout ds point) := by
  have hpoint : isAtom '.' = true := by decide
  have hzeros (n : Nat) : AllAtoms (Decimal.zeros n) :=
    TypeText.allAtoms_of_allDigits (Text.allDigits_zeros n)
  have htake (n : Nat) : AllAtoms (ds.take n) := TypeText.allAtoms_of_allDigits (h.take n)
  have hdrop (n : Nat) : AllAtoms (ds.drop n) := TypeText.allAtoms_of_allDigits (h.drop n)
  unfold Decimal.layout
  split
  · split
    · exact .cons (by decide) (.cons hpoint ((hzeros _).append (TypeText.allAtoms_of_allDigits h)))
    · refine ((htake _).append (hzeros _)).append (.cons hpoint ?_)
      split
      · exact hzeros 1
      · exact hdrop _
  · refine ((htake 1).append ?_).append (allAtoms_exponentText _)
    split
    · exact TypeText.allAtoms_nil
    · exact .cons hpoint (hdrop 1)

theorem allDigits_dropZeros {cs : List Char} (h : Text.AllDigits cs) :
    Text.AllDigits (Decimal.dropZeros cs) := fun c hc =>
  h c (by rw [Decimal.eq_dropZeros_append cs]; exact List.mem_append_left _ hc)

theorem allAtoms_magnitudeText (m : Decimal.Magnitude) : AllAtoms (Decimal.magnitudeText m) := by
  have hword (cs : List Char) (h : cs.all isAtom = true) : AllAtoms cs := List.all_eq_true.mp h
  cases m with
  | infinite => exact hword _ (by decide)
  | undefined => exact hword _ (by decide)
  | finite mantissa exponent =>
      rw [Decimal.magnitudeText]
      split
      · exact hword _ (by decide)
      · exact allAtoms_layout (allDigits_dropZeros (Text.allDigits_toDigits _)) _

theorem floatText_eq (x : Float) :
    ∃ negative, (Decimal.floatText x).toList =
      Numeral.signText negative ++ Decimal.magnitudeText (Decimal.Binary64.ofFloat x).magnitude := by
  refine ⟨(Decimal.Binary64.ofFloat x).negative &&
    (Decimal.Binary64.ofFloat x).magnitude != .undefined, ?_⟩
  rw [Decimal.floatText, String.toList_ofList]
  rfl

theorem allAtoms_floatText (x : Float) : AllAtoms (Decimal.floatText x).toList := by
  obtain ⟨negative, h⟩ := floatText_eq x
  rw [h]
  exact (allAtoms_signText _).append (allAtoms_magnitudeText _)

theorem real?_keywordHead {c : Char} (h : c.toLower = 't' ∨ c.toLower = 'f' ∨ c.toLower = 'n')
    (rest : List Char) : Numeral.real? (c :: rest) = none := by
  have hdigit : Text.isDigit c = false := by
    by_contra hcontra
    exact toLower_of_isDigit (.inl (by simpa using hcontra)) h
  have hminus : c ≠ '-' := fun heq => toLower_of_isDigit (.inr (.inl heq)) h
  have hplus : c ≠ '+' := fun heq => toLower_of_isDigit (.inr (.inr heq)) h
  have hpoint : c ≠ '.' := by
    rintro rfl
    revert h
    decide
  have hsplit : Numeral.splitSign (c :: rest) = (false, c :: rest) := by
    unfold Numeral.splitSign
    split
    · next heq => exact absurd (List.cons.inj heq).1 hminus
    · next heq => exact absurd (List.cons.inj heq).1 hplus
    · rfl
  simp only [Numeral.real?, hsplit, List.takeWhile_cons, List.dropWhile_cons, hdigit,
    Bool.false_eq_true, if_false]
  split
  · next heq => exact absurd (List.cons.inj heq).1 hpoint
  · rfl

theorem read_float {x : Float} (h : Decimal.IsFinite x) :
    read (Decimal.floatText x).toList = .ok (some (.float x)) := by
  obtain ⟨negative, digits, exponent, hreal, hvalue⟩ := Decimal.real?_floatText h
  have hup := upToLineEnd_atoms (allAtoms_floatText x)
  have hkeyword : keyword? (Decimal.floatText x).toList = none := by
    cases hk : keyword? (Decimal.floatText x).toList with
    | none => rfl
    | some s =>
        obtain ⟨c, rest, heq, hc⟩ := keyword?_head hk
        rw [heq, real?_keywordHead hc] at hreal
        cases hreal
  rw [read_number (r := .real negative digits exponent) hkeyword
    (by rw [hup, Numeral.integer?_of_real? hreal, hreal]; rfl), Numeral.scalar, hvalue]
  rfl

theorem read_not_finite {x : Float} (hx : ¬ Decimal.IsFinite x) :
    (Decimal.floatText x).toList ≠ [] ∧
      ∃ r, read (Decimal.floatText x).toList = .ok r ∧ ∀ s, r = some s → ∃ t, s = .str t := by
  obtain ⟨negative, heq⟩ := floatText_eq x
  rw [heq]
  cases hm : (Decimal.Binary64.ofFloat x).magnitude with
  | finite m e => exact absurd ⟨m, e, hm⟩ hx
  | infinite =>
      cases negative with
      | false =>
          refine ⟨by simp [Numeral.signText, Decimal.magnitudeText], some (.str "inf"), rfl, ?_⟩
          rintro _ ⟨⟩
          exact ⟨_, rfl⟩
      | true =>
          refine ⟨by simp [Numeral.signText], none, rfl, ?_⟩
          rintro _ ⟨⟩
  | undefined =>
      cases negative with
      | false =>
          refine ⟨by simp [Numeral.signText, Decimal.magnitudeText], some (.str "nan"), rfl, ?_⟩
          rintro _ ⟨⟩
          exact ⟨_, rfl⟩
      | true =>
          refine ⟨by simp [Numeral.signText], none, rfl, ?_⟩
          rintro _ ⟨⟩

end Literal

end AppSpec
