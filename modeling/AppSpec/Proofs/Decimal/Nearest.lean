import AppSpec.Decimal.Shortest
import Mathlib

/-!
Rounding to the nearest double. A ratio between the two ends of a double's interval rounds to that
double, whatever numerator and denominator it is written with.
-/

namespace AppSpec.Decimal

structure IsDouble (mantissa : Nat) (exponent : Int) : Prop where
  mantissa_lt : mantissa < 2 ^ 53
  least_le : -1074 ≤ exponent
  le_greatest : exponent ≤ 971
  normal : exponent = -1074 ∨ 2 ^ 52 ≤ mantissa

def gapBelow (mantissa : Nat) (exponent : Int) : ℚ :=
  if mantissa = 2 ^ 52 ∧ -1074 < exponent then 1 / 4 else 1 / 2

structure RoundsTo (mantissa : Nat) (exponent : Int) (q : ℚ) : Prop where
  low : (mantissa - gapBelow mantissa exponent) * 2 ^ exponent ≤ q
  high : q ≤ (mantissa + 1 / 2) * 2 ^ exponent
  low_odd : mantissa % 2 = 1 → (mantissa - gapBelow mantissa exponent) * 2 ^ exponent < q
  high_odd : mantissa % 2 = 1 → q < (mantissa + 1 / 2) * 2 ^ exponent

theorem zpow_eq_div (b : ℚ) (e : Int) : b ^ e = b ^ e.toNat / b ^ (-e).toNat := by
  rcases le_total 0 e with h | h
  · have hneg : (-e).toNat = 0 := by omega
    rw [hneg, pow_zero, div_one, ← zpow_natCast, Int.toNat_of_nonneg h]
  · have hpos : e.toNat = 0 := by omega
    rw [hpos, pow_zero, one_div, ← zpow_natCast, Int.toNat_of_nonneg (by omega), zpow_neg,
      inv_inv]

theorem shiftRatio_snd_pos (num : Nat) {den : Nat} (hd : 0 < den) (e : Int) :
    0 < (shiftRatio num den e).2 := by
  unfold shiftRatio
  split
  · exact Nat.mul_pos hd (Nat.two_pow_pos _)
  · exact hd

theorem shiftRatio_ratio (num den : Nat) (e : Int) :
    ((shiftRatio num den e).1 : ℚ) / (shiftRatio num den e).2 = num / den / 2 ^ e := by
  unfold shiftRatio twoTo
  split
  · next h =>
      have he : (2 : ℚ) ^ e = 2 ^ e.toNat := by
        rw [← zpow_natCast, Int.toNat_of_nonneg h]
      simp only [Nat.pow_eq, Nat.cast_mul, Nat.cast_pow, Nat.cast_ofNat]
      rw [he, div_div]
  · next h =>
      have he : (2 : ℚ) ^ e = (2 ^ (-e).toNat)⁻¹ := by
        rw [← zpow_natCast, Int.toNat_of_nonneg (by omega), zpow_neg, inv_inv]
      simp only [Nat.pow_eq, Nat.cast_mul, Nat.cast_pow, Nat.cast_ofNat]
      rw [he, div_inv_eq_mul, div_mul_eq_mul_div]

theorem roundHalfEven_eq {n d m : Nat} (hd : 0 < d) (hlow : 2 * (m * d) ≤ 2 * n + d)
    (hhigh : 2 * n ≤ 2 * (m * d) + d) (hlow_odd : m % 2 = 1 → 2 * (m * d) < 2 * n + d)
    (hhigh_odd : m % 2 = 1 → 2 * n < 2 * (m * d) + d) : roundHalfEven n d = m := by
  have hdiv := Nat.div_add_mod n d
  have hmod := Nat.mod_lt n hd
  rw [Nat.mul_comm] at hdiv
  have hle : n / d ≤ m := by
    by_contra h
    have := Nat.mul_le_mul_right d (Nat.lt_of_not_le h)
    rw [Nat.succ_mul] at this
    omega
  have hle' : m ≤ n / d + 1 := by
    by_contra h
    have := Nat.mul_le_mul_right d (Nat.lt_of_not_le h)
    rw [Nat.succ_mul, Nat.succ_mul] at this
    omega
  unfold roundHalfEven
  dsimp only
  rcases Nat.eq_or_lt_of_le hle with h | h
  · rw [h] at hdiv ⊢
    split
    · rfl
    · split
      · omega
      · have := hhigh_odd
        omega
  · obtain rfl : m = n / d + 1 := by omega
    have hsucc : (n / d + 1) * d = n / d * d + d := by ring
    split
    · omega
    · split
      · rfl
      · omega

theorem roundHalfEven_of_ratio {n d m : Nat} (hd : 0 < d)
    (hlow : (m : ℚ) - 1 / 2 ≤ n / d) (hhigh : (n : ℚ) / d ≤ m + 1 / 2)
    (hlow_odd : m % 2 = 1 → (m : ℚ) - 1 / 2 < n / d)
    (hhigh_odd : m % 2 = 1 → (n : ℚ) / d < m + 1 / 2) : roundHalfEven n d = m := by
  have hd' : (0 : ℚ) < d := by exact_mod_cast hd
  rw [le_div_iff₀ hd'] at hlow
  rw [div_le_iff₀ hd'] at hhigh
  rw [lt_div_iff₀ hd'] at hlow_odd
  rw [div_lt_iff₀ hd'] at hhigh_odd
  refine roundHalfEven_eq hd ?_ ?_ ?_ ?_
  · have : (2 * (m * d) : ℚ) ≤ 2 * n + d := by linarith
    exact_mod_cast this
  · have : (2 * n : ℚ) ≤ 2 * (m * d) + d := by linarith
    exact_mod_cast this
  · intro h
    have : (2 * (m * d) : ℚ) < 2 * n + d := by linarith [hlow_odd h]
    exact_mod_cast this
  · intro h
    have : (2 * n : ℚ) < 2 * (m * d) + d := by linarith [hhigh_odd h]
    exact_mod_cast this

/-! ### The exponent -/

def InBinade (e : Int) (q : ℚ) : Prop := 2 ^ 52 * 2 ^ e ≤ q ∧ q < 2 ^ 53 * 2 ^ e

theorem InBinade.lt_of_lt {a b : Int} {q : ℚ} (ha : InBinade a q) (hb : q < 2 ^ 52 * 2 ^ b) :
    a < b := by
  have h : (2 : ℚ) ^ a < 2 ^ b := by linarith [ha.1]
  exact (zpow_lt_zpow_iff_right₀ (by norm_num)).mp h

theorem InBinade.le_of_lt {a b : Int} {q : ℚ} (ha : InBinade a q) (hb : q < 2 ^ 53 * 2 ^ b) :
    a ≤ b := by
  have h : q < 2 ^ 52 * 2 ^ (b + 1) := by
    rw [zpow_add_one₀ (by norm_num)]
    linarith
  have := ha.lt_of_lt h
  omega

theorem InBinade.unique {a b : Int} {q : ℚ} (ha : InBinade a q) (hb : InBinade b q) : a = b :=
  le_antisymm (ha.le_of_lt hb.2) (hb.le_of_lt ha.2)

def unitGuess (num den : Nat) : Int := (num.log2 : Int) - den.log2 - 52

def unitExponent (num den : Nat) : Int :=
  let guess := unitGuess num den
  if (shiftRatio num den guess).1 / (shiftRatio num den guess).2 < twoTo 52 then guess - 1
  else guess

theorem two_pow_log2 {n : Nat} (hn : n ≠ 0) :
    (2 : ℚ) ^ (n.log2 : Int) ≤ n ∧ (n : ℚ) < 2 * 2 ^ (n.log2 : Int) := by
  constructor
  · rw [zpow_natCast]
    exact_mod_cast Nat.log2_self_le hn
  · have h : n < 2 * 2 ^ n.log2 := by
      have := Nat.lt_log2_self (n := n)
      rw [pow_succ] at this
      omega
    rw [zpow_natCast]
    exact_mod_cast h

theorem inBinade_unitExponent {num den : Nat} (hn : num ≠ 0) (hd : den ≠ 0) :
    InBinade (unitExponent num den) ((num : ℚ) / den) := by
  have hd' : 0 < den := Nat.pos_of_ne_zero hd
  have hdq : (0 : ℚ) < den := by exact_mod_cast hd'
  obtain ⟨hn₁, hn₂⟩ := two_pow_log2 hn
  obtain ⟨hd₁, hd₂⟩ := two_pow_log2 hd
  have hpow : (2 : ℚ) ^ 52 * 2 ^ unitGuess num den * 2 ^ (den.log2 : Int) =
      2 ^ (num.log2 : Int) := by
    rw [unitGuess, sub_sub, zpow_sub₀ (by norm_num), zpow_add₀ (by norm_num)]
    have : (2 : ℚ) ^ (den.log2 : Int) ≠ 0 := by positivity
    field_simp
  have hlow : 2 ^ 51 * 2 ^ unitGuess num den ≤ (num : ℚ) / den := by
    rw [le_div_iff₀ hdq]
    have hg : (0 : ℚ) < 2 ^ unitGuess num den := by positivity
    nlinarith
  have hhigh : (num : ℚ) / den < 2 ^ 53 * 2 ^ unitGuess num den := by
    rw [div_lt_iff₀ hdq]
    have hg : (0 : ℚ) < 2 ^ unitGuess num den := by positivity
    nlinarith
  have hratio := shiftRatio_ratio num den (unitGuess num den)
  have hsnd := shiftRatio_snd_pos num hd' (unitGuess num den)
  have htest : (shiftRatio num den (unitGuess num den)).1 /
      (shiftRatio num den (unitGuess num den)).2 < twoTo 52 ↔
        (num : ℚ) / den < 2 ^ 52 * 2 ^ unitGuess num den := by
    have hsnd' : (0 : ℚ) < (shiftRatio num den (unitGuess num den)).2 := by exact_mod_cast hsnd
    rw [Nat.div_lt_iff_lt_mul hsnd, ← div_lt_iff₀ (by positivity), ← hratio,
      div_lt_iff₀ hsnd', twoTo]
    exact_mod_cast Iff.rfl
  unfold unitExponent
  dsimp only
  split
  · next h =>
      rw [htest] at h
      have hpred : (2 : ℚ) ^ (unitGuess num den - 1) = 2 ^ unitGuess num den / 2 := by
        rw [zpow_sub_one₀ (by norm_num), div_eq_mul_inv]
      refine ⟨?_, ?_⟩ <;> rw [hpred] <;> linarith
  · next h =>
      rw [htest, not_lt] at h
      exact ⟨h, hhigh⟩

/-! ### The whole of it -/

def finish (mantissa : Nat) (exponent : Int) : Magnitude :=
  let (mantissa, exponent) :=
    if mantissa = twoTo 53 then (twoTo 52, exponent + 1) else (mantissa, exponent)
  if 971 < exponent then .infinite else .finite mantissa exponent

theorem nearest_eq {num den : Nat} (hn : num ≠ 0) :
    nearest num den =
      finish (roundHalfEven
        (shiftRatio num den (max (unitExponent num den) (-1074))).1
        (shiftRatio num den (max (unitExponent num den) (-1074))).2)
        (max (unitExponent num den) (-1074)) := by
  rw [nearest, if_neg hn]
  rfl

theorem finish_of_lt {mantissa : Nat} {exponent : Int} (h : IsDouble mantissa exponent) :
    finish mantissa exponent = .finite mantissa exponent := by
  have hne : mantissa ≠ twoTo 53 := by
    have := h.mantissa_lt
    show mantissa ≠ 2 ^ 53
    omega
  have hle := h.le_greatest
  simp only [finish, hne, if_false]
  exact if_neg (by omega)

theorem gapBelow_le (mantissa : Nat) (exponent : Int) : gapBelow mantissa exponent ≤ 1 / 2 := by
  unfold gapBelow
  split <;> norm_num

theorem round_shifted {num den m : Nat} {e : Int} (hd : den ≠ 0)
    (hlow : ((m : ℚ) - 1 / 2) * 2 ^ e ≤ num / den) (hhigh : (num : ℚ) / den ≤ (m + 1 / 2) * 2 ^ e)
    (hlow_odd : m % 2 = 1 → ((m : ℚ) - 1 / 2) * 2 ^ e < num / den)
    (hhigh_odd : m % 2 = 1 → (num : ℚ) / den < (m + 1 / 2) * 2 ^ e) :
    roundHalfEven (shiftRatio num den e).1 (shiftRatio num den e).2 = m := by
  have he : (0 : ℚ) < 2 ^ e := by positivity
  refine roundHalfEven_of_ratio (shiftRatio_snd_pos num (Nat.pos_of_ne_zero hd) e) ?_ ?_ ?_ ?_
  · rw [shiftRatio_ratio, le_div_iff₀ he]
    exact hlow
  · rw [shiftRatio_ratio, div_le_iff₀ he]
    exact hhigh
  · rw [shiftRatio_ratio, lt_div_iff₀ he]
    exact hlow_odd
  · rw [shiftRatio_ratio, div_lt_iff₀ he]
    exact hhigh_odd

theorem IsDouble.add_half_lt {m : Nat} {e : Int} (h : IsDouble m e) : (m : ℚ) + 1 / 2 < 2 ^ 53 := by
  have hm : (m : ℚ) + 1 ≤ 2 ^ 53 := by exact_mod_cast h.mantissa_lt
  linarith

theorem half_le_sub_gapBelow {m : Nat} (hm : 0 < m) (e : Int) : (1 : ℚ) / 2 ≤ m - gapBelow m e := by
  have hm : (1 : ℚ) ≤ m := by exact_mod_cast hm
  linarith [gapBelow_le m e]

namespace RoundsTo

variable {m : Nat} {e : Int} {q : ℚ}

theorem pos (hm : 0 < m) (h : RoundsTo m e q) : 0 < q := by
  have hlow := half_le_sub_gapBelow hm e
  exact (mul_pos (by linarith) (by positivity)).trans_le h.low

theorem lt_end (hdouble : IsDouble m e) (h : RoundsTo m e q) : q < 2 ^ 53 * 2 ^ e :=
  h.high.trans_lt (mul_lt_mul_of_pos_right hdouble.add_half_lt (by positivity))

/-- What lies below the binade of its double is so close to the binade that it rounds up into it. -/
theorem of_below (hdouble : IsDouble m e) (h : RoundsTo m e q) (hq : q < 2 ^ 52 * 2 ^ e)
    (hne : e ≠ -1074) : m = 2 ^ 52 ∧ (2 ^ 52 - 1 / 4) * 2 ^ e ≤ q := by
  have he : (0 : ℚ) < 2 ^ e := by positivity
  have hmin := hdouble.least_le
  have hnormal := hdouble.normal.resolve_left hne
  have hm : m = 2 ^ 52 := by
    by_contra hcontra
    have hgap : gapBelow m e = 1 / 2 := by
      rw [gapBelow, if_neg (fun h => hcontra h.1)]
    have hm : 2 ^ 52 + 1 ≤ m := by omega
    have hm : (2 : ℚ) ^ 52 + 1 ≤ m := by exact_mod_cast hm
    have hlow : ((2 : ℚ) ^ 52 + 1 / 2) * 2 ^ e ≤ ((m : ℚ) - gapBelow m e) * 2 ^ e :=
      mul_le_mul_of_nonneg_right (by linarith) he.le
    linarith [h.low]
  refine ⟨hm, ?_⟩
  have hlow := h.low
  rw [gapBelow, if_pos ⟨hm, by omega⟩, hm] at hlow
  exact_mod_cast hlow

end RoundsTo

section Nearest

variable {num den m : Nat} {e : Int} (hd : den ≠ 0) (hn : num ≠ 0) (hdouble : IsDouble m e)
  (h : RoundsTo m e ((num : ℚ) / den))

include hd hn hdouble h

theorem nearest_of_below (hq : (num : ℚ) / den < 2 ^ 52 * 2 ^ e) (hne : e ≠ -1074) :
    nearest num den = .finite m e := by
  obtain ⟨hm, hlow⟩ := h.of_below hdouble hq hne
  have he : (0 : ℚ) < 2 ^ e := by positivity
  have hmin := hdouble.least_le
  have htop := hdouble.le_greatest
  have hpred : (2 : ℚ) ^ (e - 1) = 2 ^ e / 2 := by
    rw [zpow_sub_one₀ (by norm_num), div_eq_mul_inv]
  have hunit : unitExponent num den = e - 1 := by
    refine (inBinade_unitExponent hn hd).unique ⟨?_, ?_⟩ <;> rw [hpred] <;> linarith
  have hround : roundHalfEven (shiftRatio num den (e - 1)).1 (shiftRatio num den (e - 1)).2 =
      2 ^ 53 := by
    refine round_shifted hd ?_ ?_ (by norm_num) (by norm_num)
    · rw [hpred]
      push_cast
      linarith
    · rw [hpred]
      push_cast
      linarith
  rw [nearest_eq hn, hunit, max_eq_left (by omega), hround, hm]
  simp only [finish, twoTo, Nat.pow_eq, if_true, sub_add_cancel]
  exact if_neg (by omega)

theorem nearest_of_within (hq : e ≠ -1074 → 2 ^ 52 * 2 ^ e ≤ (num : ℚ) / den) :
    nearest num den = .finite m e := by
  have hbinade := inBinade_unitExponent hn hd
  have hend := h.lt_end hdouble
  have hle := hbinade.le_of_lt hend
  have hmin := hdouble.least_le
  have hunit : max (unitExponent num den) (-1074) = e := by
    by_cases hleast : e = -1074
    · omega
    · have := hbinade.unique ⟨hq hleast, hend⟩
      omega
  have hlow : ((m : ℚ) - 1 / 2) * 2 ^ e ≤ ((m : ℚ) - gapBelow m e) * 2 ^ e :=
    mul_le_mul_of_nonneg_right (by linarith [gapBelow_le m e]) (by positivity)
  have hround : roundHalfEven (shiftRatio num den e).1 (shiftRatio num den e).2 = m :=
    round_shifted hd (hlow.trans h.low) h.high (fun ho => hlow.trans_lt (h.low_odd ho)) h.high_odd
  rw [nearest_eq hn, hunit, hround, finish_of_lt hdouble]

end Nearest

theorem nearest_of_roundsTo {num den m : Nat} {e : Int} (hd : den ≠ 0) (hm : 0 < m)
    (hdouble : IsDouble m e) (h : RoundsTo m e ((num : ℚ) / den)) :
    nearest num den = .finite m e := by
  have hn : num ≠ 0 := by
    rintro rfl
    simpa using h.pos hm
  by_cases hbelow : (num : ℚ) / den < 2 ^ 52 * 2 ^ e ∧ e ≠ -1074
  · exact nearest_of_below hd hn hdouble h hbelow.1 hbelow.2
  · exact nearest_of_within hd hn hdouble h fun hne =>
      not_lt.mp fun hq => hbelow ⟨hq, hne⟩

/-! ### Decimals -/

theorem length_toDigits_bounds {n : Nat} (hn : n ≠ 0) :
    (10 : ℚ) ^ (((Nat.toDigits 10 n).length : Int) - 1) ≤ n ∧
      (n : ℚ) < 10 ^ ((Nat.toDigits 10 n).length : Int) := by
  have hpos : 0 < (Nat.toDigits 10 n).length := Nat.length_toDigits_pos
  have hcast : (((Nat.toDigits 10 n).length : Int) - 1) =
      (((Nat.toDigits 10 n).length - 1 : Nat) : Int) := by omega
  rw [hcast, zpow_natCast, zpow_natCast]
  constructor
  · rcases Nat.eq_or_lt_of_le (Nat.succ_le_of_lt hpos) with h | h
    · rw [← h]
      have : 1 ≤ n := Nat.pos_of_ne_zero hn
      simpa using (by exact_mod_cast this : (1 : ℚ) ≤ n)
    · have hle := (Nat.length_toDigits_le_iff (n := n) (by norm_num : 1 < 10)
        (by omega : 0 < (Nat.toDigits 10 n).length - 1)).not
      have := hle.mp (by omega)
      exact_mod_cast not_lt.mp this
  · exact_mod_cast (Nat.length_toDigits_le_iff (by norm_num) hpos).mp le_rfl

theorem RoundsTo.lt_top {m : Nat} {e : Int} {q : ℚ} (hdouble : IsDouble m e)
    (h : RoundsTo m e q) : q < 10 ^ (310 : Int) := by
  have he : (2 : ℚ) ^ e ≤ 2 ^ (971 : Int) :=
    zpow_le_zpow_right₀ (by norm_num) hdouble.le_greatest
  calc q ≤ 2 ^ 53 * 2 ^ e := (h.lt_end hdouble).le
    _ ≤ 2 ^ 53 * 2 ^ (971 : Int) := mul_le_mul_of_nonneg_left he (by norm_num)
    _ < 10 ^ (310 : Int) := by
      have : 2 ^ 53 * 2 ^ 971 < 10 ^ 310 := by decide +kernel
      exact_mod_cast this

theorem RoundsTo.gt_bottom {m : Nat} {e : Int} {q : ℚ} (hdouble : IsDouble m e) (hm : 0 < m)
    (h : RoundsTo m e q) : 10 ^ (-331 : Int) < q := by
  have he : (2 : ℚ) ^ (-1074 : Int) ≤ 2 ^ e := zpow_le_zpow_right₀ (by norm_num) hdouble.least_le
  have hm' := half_le_sub_gapBelow hm e
  calc (10 : ℚ) ^ (-331 : Int) < 1 / 2 * 2 ^ (-1074 : Int) := by
        have hnat : 2 * 2 ^ 1074 < 10 ^ 331 := by decide +kernel
        have hrat : (2 : ℚ) * 2 ^ 1074 < 10 ^ 331 := by exact_mod_cast hnat
        rw [zpow_neg, zpow_neg, one_div, ← mul_inv, inv_lt_inv₀ (by positivity) (by positivity)]
        exact_mod_cast hrat
    _ ≤ (m - gapBelow m e) * 2 ^ e := mul_le_mul hm' he (by positivity) (by linarith)
    _ ≤ q := h.low

theorem nearestDecimal_of_roundsTo {digits m : Nat} {exponent e : Int} (hdigits : digits ≠ 0)
    (hm : 0 < m) (hdouble : IsDouble m e)
    (h : RoundsTo m e ((digits : ℚ) * 10 ^ exponent)) :
    nearestDecimal digits exponent = .finite m e := by
  obtain ⟨hlow, hhigh⟩ := length_toDigits_bounds hdigits
  have hten : (0 : ℚ) < 10 ^ exponent := by positivity
  have htop : exponent + ((Nat.toDigits 10 digits).length : Int) ≤ 310 := by
    have : (10 : ℚ) ^ (((Nat.toDigits 10 digits).length : Int) - 1 + exponent) < 10 ^ (310 : Int) := by
      rw [zpow_add₀ (by norm_num)]
      exact (mul_le_mul_of_nonneg_right hlow hten.le).trans_lt (h.lt_top hdouble)
    have := (zpow_lt_zpow_iff_right₀ (by norm_num)).mp this
    omega
  have hbottom : -330 ≤ exponent + ((Nat.toDigits 10 digits).length : Int) := by
    have : (10 : ℚ) ^ (-331 : Int) < 10 ^ (((Nat.toDigits 10 digits).length : Int) + exponent) := by
      rw [zpow_add₀ (by norm_num)]
      exact (h.gt_bottom hdouble hm).trans (mul_lt_mul_of_pos_right hhigh hten)
    have := (zpow_lt_zpow_iff_right₀ (by norm_num)).mp this
    omega
  rw [nearestDecimal, if_neg hdigits]
  dsimp only
  rw [if_neg (by omega), if_neg (by omega)]
  split
  · next hexp =>
      refine nearest_of_roundsTo one_ne_zero hm hdouble ?_
      have : ((digits * tenTo exponent.toNat : Nat) : ℚ) / (1 : Nat) = digits * 10 ^ exponent := by
        rw [Nat.cast_one, div_one, tenTo, Nat.cast_mul, Nat.pow_eq, Nat.cast_pow, Nat.cast_ofNat,
          ← zpow_natCast, Int.toNat_of_nonneg hexp]
      rwa [this]
  · next hexp =>
      refine nearest_of_roundsTo (pow_pos (by norm_num) _).ne' hm hdouble ?_
      have : (digits : ℚ) / (tenTo (-exponent).toNat : Nat) = digits * 10 ^ exponent := by
        rw [tenTo, Nat.pow_eq, Nat.cast_pow, Nat.cast_ofNat, ← zpow_natCast,
          Int.toNat_of_nonneg (by omega), zpow_neg, div_inv_eq_mul]
      rwa [this]

end AppSpec.Decimal
