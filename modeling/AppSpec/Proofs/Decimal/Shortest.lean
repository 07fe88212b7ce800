import AppSpec.Proofs.Decimal.Nearest

/-!
The fewest digits that read back. Seventeen places are always enough: on that grid the nearest
neighbour of a double lies inside its interval.
-/

namespace AppSpec.Decimal

section Interval

variable {m : Nat} {e : Int}

theorem ofFinite_den_pos (m : Nat) (e : Int) : 0 < (Rounding.ofFinite m e).den :=
  Nat.mul_pos (by norm_num) (Nat.two_pow_pos _)

theorem ofFinite_value (m : Nat) (e : Int) :
    ((Rounding.ofFinite m e).value : ℚ) / (Rounding.ofFinite m e).den = m * 2 ^ e := by
  rw [zpow_eq_div]
  simp only [Rounding.ofFinite, twoTo, Nat.pow_eq, Nat.cast_mul, Nat.cast_pow, Nat.cast_ofNat]
  field_simp

theorem ofFinite_low_eq (m : Nat) (e : Int) :
    (Rounding.ofFinite m e).low =
      (4 * m - if m = 2 ^ 52 ∧ -1074 < e then 1 else 2) * 2 ^ e.toNat := rfl

theorem ofFinite_den_eq (m : Nat) (e : Int) :
    (Rounding.ofFinite m e).den = 4 * 2 ^ (-e).toNat := rfl

theorem ofFinite_low (hm : 0 < m) :
    ((Rounding.ofFinite m e).low : ℚ) / (Rounding.ofFinite m e).den =
      (m - gapBelow m e) * 2 ^ e := by
  rw [zpow_eq_div, ofFinite_low_eq, ofFinite_den_eq, gapBelow]
  split
  · rw [Nat.cast_mul, Nat.cast_sub (by omega)]
    push_cast
    field_simp
  · rw [Nat.cast_mul, Nat.cast_sub (by omega)]
    push_cast
    field_simp
    ring

theorem ofFinite_high (m : Nat) (e : Int) :
    ((Rounding.ofFinite m e).high : ℚ) / (Rounding.ofFinite m e).den = (m + 1 / 2) * 2 ^ e := by
  rw [zpow_eq_div]
  simp only [Rounding.ofFinite, twoTo, Nat.pow_eq]
  push_cast
  field_simp
  ring

theorem ratio_le_iff {a b c d : Nat} (hb : 0 < b) (hd : 0 < d) :
    (a : ℚ) / b ≤ c / d ↔ a * d ≤ c * b := by
  rw [div_le_div_iff₀ (by exact_mod_cast hb) (by exact_mod_cast hd)]
  exact_mod_cast Iff.rfl

theorem ratio_lt_iff {a b c d : Nat} (hb : 0 < b) (hd : 0 < d) :
    (a : ℚ) / b < c / d ↔ a * d < c * b := by
  rw [div_lt_div_iff₀ (by exact_mod_cast hb) (by exact_mod_cast hd)]
  exact_mod_cast Iff.rfl

theorem roundsTo_iff {q : ℚ} :
    RoundsTo m e q ↔
      if m % 2 = 0 then
        (m - gapBelow m e) * 2 ^ e ≤ q ∧ q ≤ (m + 1 / 2) * 2 ^ e
      else (m - gapBelow m e) * 2 ^ e < q ∧ q < (m + 1 / 2) * 2 ^ e := by
  split
  · exact ⟨fun h => ⟨h.low, h.high⟩, fun h => ⟨h.1, h.2, by omega, by omega⟩⟩
  · exact ⟨fun h => ⟨h.low_odd (by omega), h.high_odd (by omega)⟩,
      fun h => ⟨h.1.le, h.2.le, fun _ => h.1, fun _ => h.2⟩⟩

theorem holds_iff {num den : Nat} (hm : 0 < m) (hd : 0 < den) :
    (Rounding.ofFinite m e).holds num den = true ↔ RoundsTo m e ((num : ℚ) / den) := by
  have hden := ofFinite_den_pos m e
  have hclosed : (Rounding.ofFinite m e).closed = (m % 2 == 0) := rfl
  rw [roundsTo_iff, ← ofFinite_low hm, ← ofFinite_high, ratio_le_iff hden hd, ratio_le_iff hd hden,
    ratio_lt_iff hden hd, ratio_lt_iff hd hden, Rounding.holds, hclosed]
  by_cases h : m % 2 = 0
  · simp only [h, beq_self_eq_true, if_true, Bool.and_eq_true, decide_eq_true_eq]
  · simp only [h, beq_iff_eq, if_false, Bool.and_eq_true, decide_eq_true_eq]

end Interval

/-! ### The grid -/

theorem tenTo_pos (n : Nat) : 0 < tenTo n := Nat.pow_pos (by norm_num)

theorem grid_cast (n : Nat) (exponent : Int) :
    ((n * tenTo exponent.toNat : Nat) : ℚ) / (tenTo (-exponent).toNat : Nat) =
      n * 10 ^ exponent := by
  rw [zpow_eq_div, tenTo, tenTo, Nat.pow_eq, Nat.pow_eq]
  push_cast
  ring

theorem onGrid?_some {r : Rounding} {exponent : Int} {d : Digits}
    (h : r.onGrid? exponent = some d) :
    0 < d.digits ∧
      r.holds (d.digits * tenTo d.exponent.toNat) (tenTo (-d.exponent).toNat) = true := by
  obtain ⟨n, hn, rfl⟩ := Option.map_eq_some_iff.mp h
  have := List.find?_some hn
  simpa using this

theorem exists_neighbour (a b : Nat) (hb : 0 < b) :
    let below := a / b
    let first := if a - below * b < (below + 1) * b - a ∨
      (a - below * b = (below + 1) * b - a ∧ below % 2 = 0) then below else below + 1
    (first : ℚ) ≤ a / b + 1 / 2 ∧ (a : ℚ) / b - 1 / 2 ≤ first := by
  dsimp only
  have hbq : (0 : ℚ) < b := by exact_mod_cast hb
  have hdiv := Nat.div_add_mod a b
  have hmod := Nat.mod_lt a hb
  rw [Nat.mul_comm] at hdiv
  have hsucc : (a / b + 1) * b = a / b * b + b := by ring
  rw [← sub_le_iff_le_add, le_div_iff₀ hbq, sub_le_iff_le_add, div_le_iff₀ hbq]
  split
  · next h =>
      constructor
      · have : 2 * (a / b * b) ≤ 2 * a + b := by omega
        have : (2 * ((a / b : Nat) * b) : ℚ) ≤ 2 * a + b := by exact_mod_cast this
        linarith
      · have : 2 * a ≤ 2 * (a / b * b) + b := by omega
        have : (2 * a : ℚ) ≤ 2 * ((a / b : Nat) * b) + b := by exact_mod_cast this
        linarith
  · next h =>
      constructor
      · have : 2 * ((a / b + 1) * b) ≤ 2 * a + b := by omega
        have : (2 * ((a / b + 1 : Nat) * b) : ℚ) ≤ 2 * a + b := by exact_mod_cast this
        linarith
      · have : 2 * a ≤ 2 * ((a / b + 1) * b) + b := by omega
        have : (2 * a : ℚ) ≤ 2 * ((a / b + 1 : Nat) * b) + b := by exact_mod_cast this
        linarith

theorem onGrid?_isSome {r : Rounding} {exponent : Int} (hden : 0 < r.den)
    (h : ∀ n : Nat, (n : ℚ) ≤ r.value / r.den / 10 ^ exponent + 1 / 2 →
      (r.value : ℚ) / r.den / 10 ^ exponent - 1 / 2 ≤ n →
        0 < n ∧ r.holds (n * tenTo exponent.toNat) (tenTo (-exponent).toNat) = true) :
    (r.onGrid? exponent).isSome := by
  have hb : 0 < r.den * tenTo exponent.toNat := Nat.mul_pos hden (tenTo_pos _)
  have hratio : ((r.value * tenTo (-exponent).toNat : Nat) : ℚ) /
      (r.den * tenTo exponent.toNat : Nat) = r.value / r.den / 10 ^ exponent := by
    rw [zpow_eq_div, tenTo, tenTo, Nat.pow_eq, Nat.pow_eq]
    push_cast
    field_simp
  obtain ⟨hle, hge⟩ := exists_neighbour (r.value * tenTo (-exponent).toNat) _ hb
  rw [hratio] at hle hge
  obtain ⟨hpos, hholds⟩ := h _ hle hge
  rw [Rounding.onGrid?, Option.isSome_map, List.find?_isSome]
  exact ⟨_, List.mem_cons_self, by rw [hholds, Bool.and_true, decide_eq_true_eq]; exact hpos⟩

theorem places_le {r : Rounding} (hvalue : r.value ≠ 0) (hden : r.den ≠ 0) :
    (10 : ℚ) ^ (r.places - 1) ≤ r.value / r.den := by
  have hd : (0 : ℚ) < r.den := by exact_mod_cast Nat.pos_of_ne_zero hden
  obtain ⟨hv, -⟩ := length_toDigits_bounds hvalue
  obtain ⟨-, hd'⟩ := length_toDigits_bounds hden
  rw [le_div_iff₀ hd, Rounding.places]
  split
  · refine (mul_le_mul_of_nonneg_left hd'.le (by positivity)).trans ?_
    rw [← zpow_add₀ (by norm_num)]
    refine le_of_eq_of_le ?_ hv
    congr 1
    omega
  · next h =>
      have h := not_lt.mp h
      rw [add_sub_cancel_right, zpow_eq_div, div_mul_eq_mul_div, div_le_iff₀ (by positivity),
        mul_comm]
      simp only [tenTo, Nat.pow_eq] at h
      exact_mod_cast h

theorem onLastGrid {m n : Nat} {e : Int} (hm : 0 < m) (hdouble : IsDouble m e)
    (hle : (n : ℚ) ≤
      m * 2 ^ e / 10 ^ ((Rounding.ofFinite m e).places - ((16 : Nat) + 1)) + 1 / 2)
    (hge : (m : ℚ) * 2 ^ e / 10 ^ ((Rounding.ofFinite m e).places - ((16 : Nat) + 1)) - 1 / 2 ≤ n) :
    0 < n ∧ (Rounding.ofFinite m e).holds
      (n * tenTo ((Rounding.ofFinite m e).places - ((16 : Nat) + 1)).toNat)
      (tenTo (-((Rounding.ofFinite m e).places - ((16 : Nat) + 1))).toNat) = true := by
  have hvalue : (Rounding.ofFinite m e).value ≠ 0 := by
    have : 0 < 4 * m * 2 ^ e.toNat := by positivity
    exact this.ne'
  have hplaces := places_le hvalue (ofFinite_den_pos m e).ne'
  rw [ofFinite_value] at hplaces
  rw [holds_iff hm (tenTo_pos _), grid_cast]
  generalize hE : (Rounding.ofFinite m e).places - ((16 : Nat) + 1) = E at *
  have hE' : (Rounding.ofFinite m e).places - 1 = 16 + E := by omega
  have hg : (0 : ℚ) < 10 ^ E := by positivity
  have he : (0 : ℚ) < 2 ^ e := by positivity
  rw [hE', zpow_add₀ (by norm_num)] at hplaces
  have hcount : (10 : ℚ) ^ 16 ≤ m * 2 ^ e / 10 ^ E := by
    rw [le_div_iff₀ hg]
    exact_mod_cast hplaces
  have hmid : (m : ℚ) * 2 ^ e / 10 ^ E * 10 ^ E = m * 2 ^ e := by field_simp
  have hle' : (n : ℚ) * 10 ^ E ≤ m * 2 ^ e + 10 ^ E / 2 := by nlinarith
  have hge' : (m : ℚ) * 2 ^ e - 10 ^ E / 2 ≤ n * 10 ^ E := by nlinarith
  have hm' : (m : ℚ) < 2 ^ 53 := by exact_mod_cast hdouble.mantissa_lt
  have hhalf : (10 : ℚ) ^ E / 2 < 1 / 2 * 2 ^ e := by nlinarith
  have hgap : (10 : ℚ) ^ E / 2 < gapBelow m e * 2 ^ e := by
    unfold gapBelow
    split
    · next h =>
        rw [h.1] at hplaces
        push_cast at hplaces
        nlinarith
    · exact hhalf
  refine ⟨?_, roundsTo_iff.mpr ?_⟩
  · have : (0 : ℚ) < n := by linarith
    exact_mod_cast this
  · have hlow : ((m : ℚ) - gapBelow m e) * 2 ^ e < n * 10 ^ E := by linarith
    have hhigh : (n : ℚ) * 10 ^ E < (m + 1 / 2) * 2 ^ e := by linarith
    split
    · exact ⟨hlow.le, hhigh.le⟩
    · exact ⟨hlow, hhigh⟩

theorem shortest_roundsTo {m : Nat} {e : Int} (hm : 0 < m) (hdouble : IsDouble m e) :
    0 < (Rounding.ofFinite m e).shortest.digits ∧
      RoundsTo m e ((Rounding.ofFinite m e).shortest.digits *
        10 ^ (Rounding.ofFinite m e).shortest.exponent) := by
  have hfound : ∃ d, ((List.range 17).findSome? fun (n : Nat) =>
      (Rounding.ofFinite m e).onGrid? ((Rounding.ofFinite m e).places - (n + 1))) = some d := by
    rw [← Option.isSome_iff_exists, List.findSome?_isSome_iff]
    refine ⟨16, by simp, onGrid?_isSome (ofFinite_den_pos m e) ?_⟩
    rw [ofFinite_value]
    intro n hle hge
    exact onLastGrid hm hdouble hle hge
  obtain ⟨d, hd⟩ := hfound
  have hshortest : (Rounding.ofFinite m e).shortest = d := by
    rw [Rounding.shortest, hd, Option.getD_some]
  obtain ⟨n, -, hn⟩ := List.exists_of_findSome?_eq_some hd
  obtain ⟨hpos, hholds⟩ := onGrid?_some hn
  rw [hshortest]
  refine ⟨hpos, ?_⟩
  rw [← grid_cast]
  exact (holds_iff hm (tenTo_pos _)).mp hholds

end AppSpec.Decimal
