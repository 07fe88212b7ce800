import AppSpec.Proofs.Decimal.Binary64
import AppSpec.Proofs.Decimal.Shortest
import AppSpec.Proofs.Text.Digit
import AppSpec.TypeExpr.Literal

/-!
The text of a finite double, read as a number, is that double again.
-/

namespace AppSpec

namespace Numeral

open Text (AllDigits NoDigitHead natOfDigits)

def signText (negative : Bool) : List Char := if negative then ['-'] else []

theorem not_sign_of_isDigit {c : Char} (h : c.isDigit = true) : c ≠ '-' ∧ c ≠ '+' := by
  constructor <;> rintro rfl <;> cases h

theorem splitSign_cons {c : Char} {cs : List Char} (h : c.isDigit = true) :
    splitSign (c :: cs) = (false, c :: cs) := by
  obtain ⟨hminus, hplus⟩ := not_sign_of_isDigit h
  unfold splitSign
  split
  · next heq => exact absurd (List.cons.inj heq).1 hminus
  · next heq => exact absurd (List.cons.inj heq).1 hplus
  · rfl

theorem splitSign_signText (negative : Bool) {cs : List Char} (h : AllDigits cs) (hne : cs ≠ [])
    (rest : List Char) : splitSign (signText negative ++ (cs ++ rest)) = (negative, cs ++ rest) := by
  cases negative with
  | true => rfl
  | false =>
      cases cs with
      | nil => exact absurd rfl hne
      | cons c cs => exact splitSign_cons (h c (by simp))

theorem integer?_signText (negative : Bool) {cs : List Char} (h : AllDigits cs) (hne : cs ≠ []) :
    integer? (signText negative ++ cs) = some (.integer negative cs) := by
  have hsplit := splitSign_signText negative h hne []
  rw [List.append_nil] at hsplit
  have hempty : cs.isEmpty = false := by simpa using hne
  simp only [integer?, hsplit, hempty, h.all, Bool.not_false, Bool.and_self, if_true]

theorem allDigits_exponent (e : Int) :
    AllDigits (Decimal.zeros (2 - (Nat.toDigits 10 e.natAbs).length) ++
      Nat.toDigits 10 e.natAbs) :=
  (Text.allDigits_zeros _).append (Text.allDigits_toDigits _)

theorem exponent?_exponentText (e : Int) : exponent? (Decimal.exponentText e) = some e := by
  have hdigits := allDigits_exponent e
  have hvalue : natOfDigits (Decimal.zeros (2 - (Nat.toDigits 10 e.natAbs).length) ++
      Nat.toDigits 10 e.natAbs) = e.natAbs := by
    rw [Decimal.zeros, Text.natOfDigits_zeros_append (Text.allDigits_toDigits _),
      Text.natOfDigits_toDigits]
  have hempty : (Decimal.zeros (2 - (Nat.toDigits 10 e.natAbs).length) ++
      Nat.toDigits 10 e.natAbs).isEmpty = false := by simp
  rw [Decimal.exponentText]
  generalize Decimal.zeros (2 - (Nat.toDigits 10 e.natAbs).length) ++
    Nat.toDigits 10 e.natAbs = digits at *
  by_cases h : e < 0
  · simp only [exponent?, h, if_true, integer?, splitSign, hempty, hdigits.all, Bool.not_false,
      Bool.and_self, beq_self_eq_true, Bool.true_or, signed, hvalue, Option.some.injEq]
    omega
  · simp only [exponent?, h, if_true, if_false, integer?, splitSign, hempty, hdigits.all,
      Bool.not_false, Bool.and_self, beq_self_eq_true, Bool.true_or, signed, hvalue,
      Option.some.injEq, Bool.false_eq_true]
    omega

theorem noDigitHead_point (cs : List Char) : NoDigitHead ('.' :: cs) :=
  Text.noDigitHead_cons (by decide) cs

theorem real?_point (negative : Bool) {whole places : List Char} (hwhole : AllDigits whole)
    (hplaces : AllDigits places) (hne : whole ≠ []) :
    real? (signText negative ++ (whole ++ '.' :: places)) =
      some (.real negative (whole ++ places) (-places.length)) := by
  obtain ⟨htake, hdrop⟩ := Text.takeWhile_isDigit hwhole (noDigitHead_point places)
  obtain ⟨htake', hdrop'⟩ := Text.takeWhile_isDigit hplaces Text.noDigitHead_nil
  rw [List.append_nil] at htake' hdrop'
  have hempty : (whole ++ places).isEmpty = false := by simp [hne]
  simp only [real?, splitSign_signText negative hwhole hne, htake, hdrop, htake', hdrop', hempty,
    Bool.false_eq_true, if_false]

theorem noDigitHead_exponentText (e : Int) : NoDigitHead (Decimal.exponentText e) :=
  Text.noDigitHead_cons (by decide) _

theorem real?_exponent (negative : Bool) {whole places : List Char} (hwhole : AllDigits whole)
    (hplaces : AllDigits places) (hne : whole ≠ []) (e : Int) :
    real? (signText negative ++ (whole ++ ((if places.isEmpty then [] else '.' :: places) ++
      Decimal.exponentText e))) = some (.real negative (whole ++ places) (e - places.length)) := by
  have hempty : whole.isEmpty = false := by simpa using hne
  have hexp := exponent?_exponentText e
  have hhead := noDigitHead_exponentText e
  cases places with
  | nil =>
      obtain ⟨htake, hdrop⟩ := Text.takeWhile_isDigit hwhole hhead
      simp only [List.isEmpty_nil, if_true, List.nil_append, real?,
        splitSign_signText negative hwhole hne, htake, hdrop]
      simp only [hempty, Bool.false_eq_true, if_false, List.append_nil, List.length_nil,
        Nat.cast_zero, sub_zero]
      show Option.map _ (exponent? (Decimal.exponentText e)) = _
      rw [hexp, Option.map_some]
  | cons d places =>
      obtain ⟨htake, hdrop⟩ := Text.takeWhile_isDigit hwhole
        (noDigitHead_point (d :: places ++ Decimal.exponentText e))
      obtain ⟨htake', hdrop'⟩ := Text.takeWhile_isDigit hplaces hhead
      simp only [List.isEmpty_cons, Bool.false_eq_true, if_false, real?, List.cons_append] at *
      simp only [splitSign_signText negative hwhole hne, htake, hdrop, htake', hdrop']
      simp only [hempty, Bool.false_eq_true, if_false]
      show Option.map _ (exponent? (Decimal.exponentText e)) = _
      rw [hexp, Option.map_some]

end Numeral

namespace Decimal

open Text (AllDigits natOfDigits)
open Numeral (signText)

/-! ### Layouts -/

/-- A text with a sign in front is read as a number that has these digits and this point. -/
def ReadsAs (negative : Bool) (text ds : List Char) (point : Int) : Prop :=
  ∃ digits exponent,
    Numeral.real? (signText negative ++ text) = some (.real negative digits exponent) ∧
    (natOfDigits digits : ℚ) * 10 ^ exponent = natOfDigits ds * 10 ^ (point - ds.length)

section Layout

variable {negative : Bool} {ds : List Char} {point : Int} (hds : AllDigits ds)

include hds

theorem readsAs_fraction (hpoint : point ≤ 0) :
    ReadsAs negative ('0' :: '.' :: (zeros (-point).toNat ++ ds)) ds point := by
  have hzeros : AllDigits (zeros (-point).toNat ++ ds) := (Text.allDigits_zeros _).append hds
  have hread := Numeral.real?_point negative (Text.allDigits_zeros 1) hzeros (by simp)
  refine ⟨_, _, hread, ?_⟩
  rw [Text.natOfDigits_zeros_append hzeros, zeros, Text.natOfDigits_zeros_append hds,
    List.length_append, List.length_replicate]
  congr 2
  omega

/-- Every digit stands before the point, and a zero after it. -/
theorem readsAs_whole (hne : ds ≠ []) (hpoint : 0 < point) (hlen : ds.length ≤ point.toNat) :
    ReadsAs negative (ds ++ zeros (point.toNat - ds.length) ++ '.' :: ['0']) ds point := by
  have hwhole : AllDigits (ds ++ zeros (point.toNat - ds.length)) :=
    hds.append (Text.allDigits_zeros _)
  have hread := Numeral.real?_point negative hwhole (Text.allDigits_zeros 1)
    (List.append_ne_nil_of_left_ne_nil hne _)
  refine ⟨_, _, hread, ?_⟩
  have hexp : point - (ds.length : Int) = ((point.toNat - ds.length : Nat) : Int) := by omega
  rw [zeros, List.append_assoc, ← List.replicate_add, Text.natOfDigits_append_zeros hds,
    List.length_replicate, hexp, zpow_natCast, pow_succ]
  push_cast
  rw [zpow_neg_one]
  field_simp

theorem readsAs_mixed (hpoint : 0 < point) (hlen : point.toNat < ds.length) :
    ReadsAs negative (ds.take point.toNat ++ '.' :: ds.drop point.toNat) ds point := by
  have htake : ds.take point.toNat ≠ [] := by
    intro hnil
    have hlength := congrArg List.length hnil
    rw [List.length_take, List.length_nil] at hlength
    omega
  have hread := Numeral.real?_point negative (hds.take point.toNat) (hds.drop point.toNat) htake
  refine ⟨_, _, hread, ?_⟩
  rw [List.take_append_drop, List.length_drop]
  congr 2
  omega

theorem readsAs_exponent (hne : ds ≠ []) :
    ReadsAs negative (ds.take 1 ++ (if (ds.drop 1).isEmpty then [] else '.' :: ds.drop 1) ++
      exponentText (point - 1)) ds point := by
  have htake : ds.take 1 ≠ [] := by
    intro h
    rcases List.take_eq_nil_iff.mp h with h | h
    · omega
    · exact hne h
  have hread := Numeral.real?_exponent negative (hds.take 1) (hds.drop 1) htake (point - 1)
  rw [List.append_assoc]
  refine ⟨_, _, hread, ?_⟩
  rw [List.take_append_drop, List.length_drop]
  have := List.length_pos_iff.mpr hne
  congr 2
  omega

theorem readsAs_layout (hne : ds ≠ []) : ReadsAs negative (layout ds point) ds point := by
  unfold layout
  split
  · split
    · next hpoint => exact readsAs_fraction hds hpoint
    · next hpoint =>
        dsimp only
        by_cases hlen : ds.length ≤ point.toNat
        · rw [List.take_of_length_le hlen, List.drop_eq_nil_of_le hlen]
          exact readsAs_whole hds hne (not_le.mp hpoint) hlen
        · have hempty : (ds.drop point.toNat).isEmpty = false := by simpa using hlen
          have htake : (ds.take point.toNat).length = point.toNat := by
            rw [List.length_take]
            omega
          rw [htake, Nat.sub_self, hempty, zeros, List.replicate_zero, List.append_nil]
          exact readsAs_mixed hds (not_le.mp hpoint) (not_le.mp hlen)
  · exact readsAs_exponent hds hne

end Layout

theorem eq_dropZeros_append (cs : List Char) :
    cs = dropZeros cs ++ zeros (cs.length - (dropZeros cs).length) := by
  have hsplit := List.takeWhile_append_dropWhile (p := (· == '0')) (l := cs.reverse)
  have hzeros : cs.reverse.takeWhile (· == '0') =
      zeros (cs.reverse.takeWhile (· == '0')).length := by
    rw [zeros, List.eq_replicate_iff]
    exact ⟨rfl, fun c hc => by simpa using List.mem_takeWhile_imp hc⟩
  have hcs : cs = dropZeros cs ++ zeros (cs.reverse.takeWhile (· == '0')).length := by
    rw [dropZeros, ← List.reverse_inj, List.reverse_append, List.reverse_reverse, zeros,
      List.reverse_replicate, ← zeros, ← hzeros, hsplit]
  have hlen := congrArg List.length hcs
  rw [List.length_append, zeros, List.length_replicate] at hlen
  have : cs.length - (dropZeros cs).length = (cs.reverse.takeWhile (· == '0')).length := by omega
  rw [this, ← hcs]

theorem real?_magnitudeText (negative : Bool) {m : Nat} {e : Int} (hdouble : IsDouble m e)
    (hzero : m = 0 → e = -1074) :
    ∃ digits exponent,
      Numeral.real? (signText negative ++ magnitudeText (.finite m e)) =
        some (.real negative digits exponent) ∧
      nearestDecimal (natOfDigits digits) exponent = .finite m e := by
  rw [magnitudeText]
  split
  · next hm =>
      obtain rfl := hm
      refine ⟨['0', '0'], -1, ?_, ?_⟩
      · exact Numeral.real?_point negative (Text.allDigits_zeros 1) (Text.allDigits_zeros 1)
          (by simp)
      · rw [hzero rfl]
        rfl
  · next hm =>
      obtain ⟨hpos, hrounds⟩ := shortest_roundsTo (Nat.pos_of_ne_zero hm) hdouble
      generalize (Rounding.ofFinite m e).shortest = shortest at *
      dsimp only
      have hwritten := Text.allDigits_toDigits shortest.digits
      have hvalue := Text.natOfDigits_toDigits shortest.digits
      generalize Nat.toDigits 10 shortest.digits = written at *
      have hsplit := eq_dropZeros_append written
      have hkept : AllDigits (dropZeros written) := fun c hc =>
        hwritten c (by rw [hsplit]; exact List.mem_append_left _ hc)
      have hnat : natOfDigits (dropZeros written) * 10 ^ (written.length - (dropZeros written).length) =
          shortest.digits := by
        rw [← Text.natOfDigits_append_zeros hkept, ← zeros, ← hsplit, hvalue]
      have hkept_ne : dropZeros written ≠ [] := by
        intro h
        rw [h, Text.natOfDigits, List.foldl_nil, Nat.zero_mul] at hnat
        omega
      have hlen : (dropZeros written).length ≤ written.length := by
        have := congrArg List.length hsplit
        rw [List.length_append] at this
        omega
      obtain ⟨digits, exponent, hread, heq⟩ : ReadsAs negative
          (layout (dropZeros written) (shortest.exponent + written.length)) (dropZeros written)
          (shortest.exponent + written.length) := readsAs_layout hkept hkept_ne
      refine ⟨digits, exponent, hread, ?_⟩
      have hq : (natOfDigits digits : ℚ) * 10 ^ exponent =
          shortest.digits * 10 ^ shortest.exponent := by
        have hexp : shortest.exponent + (written.length : Int) - (dropZeros written).length =
            ((written.length - (dropZeros written).length : Nat) : Int) + shortest.exponent := by
          omega
        rw [heq, hexp, zpow_add₀ (by norm_num), zpow_natCast, ← hnat]
        push_cast
        ring
      have hdigits : natOfDigits digits ≠ 0 := by
        intro h
        rw [h, Nat.cast_zero, zero_mul] at hq
        have : (0 : ℚ) < shortest.digits * 10 ^ shortest.exponent := by positivity
        exact this.ne hq
      rw [← hq] at hrounds
      exact nearestDecimal_of_roundsTo hdigits (Nat.pos_of_ne_zero hm) hdouble hrounds

theorem floatText_toList {x : Float} {m : Nat} {e : Int}
    (h : (Binary64.ofFloat x).magnitude = .finite m e) :
    (floatText x).toList =
      signText (Binary64.ofFloat x).negative ++ magnitudeText (.finite m e) := by
  rw [floatText, String.toList_ofList, h, signText]
  simp

theorem real?_floatText {x : Float} (h : IsFinite x) :
    ∃ negative digits exponent,
      Numeral.real? (floatText x).toList = some (.real negative digits exponent) ∧
      ofDecimal negative (natOfDigits digits) exponent = x := by
  obtain ⟨m, e, hx⟩ := h
  have hzero : m = 0 → e = -1074 := by
    intro hm
    rcases ofFloat_finite hx with ⟨-, -, he⟩ | ⟨-, -, hm', -⟩
    · exact he
    · omega
  obtain ⟨digits, exponent, hread, hnear⟩ :=
    real?_magnitudeText (Binary64.ofFloat x).negative (isDouble_of_ofFloat hx) hzero
  refine ⟨_, digits, exponent, by rw [floatText_toList hx]; exact hread, ?_⟩
  rw [ofDecimal, hnear, toFloat_ofFloat hx]

end Decimal

end AppSpec
