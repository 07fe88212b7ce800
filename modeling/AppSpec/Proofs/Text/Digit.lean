import AppSpec.Text.Digit
import Mathlib

/-!
The numbers that digits write.
-/

namespace AppSpec.Text

def AllDigits (cs : List Char) : Prop := ∀ c ∈ cs, c.isDigit = true

theorem toNat_bounds_of_isDigit {c : Char} (h : c.isDigit = true) :
    48 ≤ c.toNat ∧ c.toNat ≤ 57 := by
  simp only [Char.isDigit, Bool.and_eq_true, decide_eq_true_eq, ge_iff_le] at h
  exact ⟨h.1, h.2⟩

theorem digitValue?_of_isDigit {c : Char} (h : c.isDigit = true) :
    digitValue? c = some (c.toNat - 48) := by
  obtain ⟨hlow, hhigh⟩ := toNat_bounds_of_isDigit h
  have hzero : (decide (0x30 ≤ c.toNat) && decide (c.toNat < 0x30 + 10)) = true := by
    rw [Bool.and_eq_true, decide_eq_true_eq, decide_eq_true_eq]
    omega
  have hfind : digitZeros.find? (fun z => decide (z ≤ c.toNat) && decide (c.toNat < z + 10)) =
      some 0x30 := List.find?_cons_of_pos hzero
  rw [digitValue?, hfind]
  rfl

theorem isDigit_of_isDigit {c : Char} (h : c.isDigit = true) : isDigit c = true := by
  rw [isDigit, digitValue?_of_isDigit h]
  rfl

theorem AllDigits.all {cs : List Char} (h : AllDigits cs) : cs.all isDigit = true :=
  List.all_eq_true.mpr fun c hc => isDigit_of_isDigit (h c hc)

theorem AllDigits.append {cs ds : List Char} (hc : AllDigits cs) (hd : AllDigits ds) :
    AllDigits (cs ++ ds) := by
  intro c h
  rcases List.mem_append.mp h with h | h
  · exact hc c h
  · exact hd c h

theorem AllDigits.take {cs : List Char} (h : AllDigits cs) (n : Nat) : AllDigits (cs.take n) :=
  fun c hc => h c (List.mem_of_mem_take hc)

theorem AllDigits.drop {cs : List Char} (h : AllDigits cs) (n : Nat) : AllDigits (cs.drop n) :=
  fun c hc => h c (List.mem_of_mem_drop hc)

theorem allDigits_toDigits (n : Nat) : AllDigits (Nat.toDigits 10 n) :=
  fun _ hc => Nat.isDigit_of_mem_toDigits (by omega) (by omega) hc

theorem allDigits_zeros (n : Nat) : AllDigits (List.replicate n '0') := by
  intro c hc
  rw [List.eq_of_mem_replicate hc]
  rfl

theorem foldl_eq_ofDigitChars {cs : List Char} (h : AllDigits cs) (n : Nat) :
    cs.foldl (fun n c => n * 10 + (digitValue? c).getD 0) n = Nat.ofDigitChars 10 cs n := by
  induction cs generalizing n with
  | nil => rfl
  | cons c cs ih =>
      have hc : digitValue? c = some (c.toNat - 48) := digitValue?_of_isDigit (h c (by simp))
      rw [List.foldl_cons, Nat.ofDigitChars_cons, ih (fun d hd => h d (by simp [hd])), hc,
        Option.getD_some, Nat.mul_comm n 10]
      rfl

theorem natOfDigits_eq {cs : List Char} (h : AllDigits cs) :
    natOfDigits cs = Nat.ofDigitChars 10 cs 0 := foldl_eq_ofDigitChars h 0

@[simp]
theorem natOfDigits_toDigits (n : Nat) : natOfDigits (Nat.toDigits 10 n) = n := by
  rw [natOfDigits_eq (allDigits_toDigits n), Nat.ofDigitChars_ten_toDigits]

theorem natOfDigits_append_zeros {cs : List Char} (h : AllDigits cs) (n : Nat) :
    natOfDigits (cs ++ List.replicate n '0') = natOfDigits cs * 10 ^ n := by
  rw [natOfDigits_eq (h.append (allDigits_zeros n)), natOfDigits_eq h, Nat.ofDigitChars_append,
    Nat.ofDigitChars_replicate_zero, Nat.mul_comm]

theorem natOfDigits_zeros_append {cs : List Char} (h : AllDigits cs) (n : Nat) :
    natOfDigits (List.replicate n '0' ++ cs) = natOfDigits cs := by
  rw [natOfDigits_eq ((allDigits_zeros n).append h), natOfDigits_eq h, Nat.ofDigitChars_append,
    Nat.ofDigitChars_replicate_zero, Nat.mul_zero]

/-! ### Spans -/

def NoDigitHead (cs : List Char) : Prop := ∀ c ∈ cs.head?, isDigit c = false

theorem noDigitHead_nil : NoDigitHead [] := by
  intro c hc
  cases hc

theorem noDigitHead_cons {c : Char} (h : isDigit c = false) (cs : List Char) :
    NoDigitHead (c :: cs) := by
  intro d hd
  cases hd
  exact h

theorem takeWhile_isDigit {cs rest : List Char} (h : AllDigits cs) (hrest : NoDigitHead rest) :
    (cs ++ rest).takeWhile isDigit = cs ∧ (cs ++ rest).dropWhile isDigit = rest := by
  have hall : ∀ c ∈ cs, isDigit c = true := fun c hc => isDigit_of_isDigit (h c hc)
  rw [List.takeWhile_append_of_pos hall, List.dropWhile_append_of_pos hall]
  cases rest with
  | nil => exact ⟨by simp, rfl⟩
  | cons c rest =>
      have hc : isDigit c = false := hrest c rfl
      rw [List.takeWhile_cons, List.dropWhile_cons, hc]
      exact ⟨by simp, rfl⟩

theorem integerTooLong_iff (n : Int) :
    integerTooLong n = true ↔ maxIntegerDigits < (Nat.toDigits 10 n.natAbs).length := by
  have h := Nat.length_toDigits_le_iff (n := n.natAbs) (k := maxIntegerDigits) (b := 10)
    (by omega) (by decide)
  rw [integerTooLong, decide_eq_true_eq, Nat.pow_eq, ← Nat.not_lt, ← h, Nat.not_le]

theorem integerTooLong_of_lt {n : Int} {k : Nat} (hk : k ≤ maxIntegerDigits)
    (h : n.natAbs < 10 ^ k) : integerTooLong n = false := by
  rw [← Bool.not_eq_true, integerTooLong_iff, Nat.not_lt]
  refine (Nat.length_toDigits_le_iff (by omega) (by decide)).mpr ?_
  exact Nat.lt_of_lt_of_le h (Nat.pow_le_pow_right (by omega) hk)

end AppSpec.Text
