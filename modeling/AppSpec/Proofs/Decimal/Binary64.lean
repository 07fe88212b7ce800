import AppSpec.Proofs.Decimal.Nearest

/-!
The bits of a double and its parts determine each other.
-/

namespace AppSpec.Decimal

section Bits

open Float.Model
open Float.Model.UnpackedFloat (Sign unpackSign unpackExponent unpackMantissa packComponents)

theorem exponentBias_eq : (Format.binary64.exponentBias : Int) = 1023 := by decide

theorem mantissaBits_eq : Format.binary64.mantissaBits = 53 := by decide

theorem sign_toBitVec_ofBitVec (v : BitVec 1) : (Sign.ofBitVec v).toBitVec = v := by
  revert v
  decide

theorem packComponents_parts {b : BitVec Format.binary64.numBits} {scale : BitVec 11}
    {fraction : BitVec 52} (hscale : unpackExponent b = scale)
    (hfraction : unpackMantissa b = fraction) :
    packComponents Format.binary64 (Sign.ofBitVec (unpackSign b)) scale fraction = b := by
  subst hscale hfraction
  rw [packComponents, sign_toBitVec_ofBitVec]
  ext i hi
  simp only [unpackSign, unpackExponent, unpackMantissa, BitVec.extractLsb]
  grind

theorem pack_subnormal (s : Sign) {fraction : BitVec 52} {e : Int} (he : e = -1074)
    (hpos : 0 < fraction.toNat) :
    UnpackedFloat.pack Format.binary64 (.finite s fraction.toNat e hpos) =
      packComponents Format.binary64 s 0#11 fraction := by
  have hlog : fraction.toNat.log2 < 52 := (Nat.log2_lt hpos.ne').mpr fraction.isLt
  have hscale : (e + Format.binary64.exponentBias +
      (Format.binary64.mantissaBitsWithoutImplicit : Nat)).toNat = 1 := by
    rw [he]
    decide
  rw [UnpackedFloat.pack]
  dsimp only
  rw [hscale, if_neg (by decide), mantissaBits_eq, if_neg (by omega)]
  congr 1
  rw [BitVec.ofNat_toNat, BitVec.setWidth_eq]

theorem toNat_implicit (fraction : BitVec 52) :
    (1#1 ++ fraction).toNat = 2 ^ 52 + fraction.toNat := by
  rw [BitVec.toNat_append, Nat.shiftLeft_eq, ← Nat.shiftLeft_eq,
    ← Nat.shiftLeft_add_eq_or_of_lt fraction.isLt, Nat.shiftLeft_eq]
  rfl

theorem pack_normal (s : Sign) {fraction : BitVec 52} {scale : BitVec 11} {e : Int}
    (hscale : scale ≠ -1#11) (he : e = (scale.toNat : Int) - 1075)
    (hpos : 0 < (1#1 ++ fraction).toNat) :
    UnpackedFloat.pack Format.binary64 (.finite s (1#1 ++ fraction).toNat e hpos) =
      packComponents Format.binary64 s scale fraction := by
  have hvalue := toNat_implicit fraction
  have hfraction := fraction.isLt
  have hlog : (1#1 ++ fraction).toNat.log2 = 52 := by
    rw [Nat.log2_eq_iff hpos.ne', hvalue]
    omega
  have hlt : scale.toNat + 1 < 2 ^ 11 := by
    have hne : scale.toNat ≠ 2 ^ 11 - 1 := fun h => hscale (BitVec.eq_of_toNat_eq h)
    have := scale.isLt
    omega
  have hbiased : (e + Format.binary64.exponentBias + (52 : Nat)).toNat = scale.toNat := by
    rw [exponentBias_eq, he]
    omega
  rw [UnpackedFloat.pack]
  dsimp only
  rw [hbiased, if_neg (by omega), hlog, mantissaBits_eq, if_pos rfl]
  congr 1
  · rw [BitVec.ofNat_toNat, BitVec.setWidth_eq]
  · apply BitVec.eq_of_toNat_eq
    rw [BitVec.toNat_ofNat, hvalue]
    omega

theorem pack_unpack {b : BitVec Format.binary64.numBits} (h : Format.binary64.Valid b) :
    UnpackedFloat.pack Format.binary64 (UnpackedFloat.unpack Format.binary64 b) = b := by
  unfold UnpackedFloat.unpack
  dsimp only
  split
  · next hscale =>
      split
      · next hfraction => exact packComponents_parts hscale hfraction
      · next hfraction => exact (h.eq_packedNaN hscale hfraction).symm
  · next hnan =>
      split
      · next hscale =>
          split
          · next hfraction => exact packComponents_parts hscale hfraction
          · next hfraction =>
              have he : ((unpackExponent b).toNat : Int) -
                  (Format.binary64.exponentBias + (52 : Nat)) + 1 = -1074 := by
                rw [hscale]
                decide
              rw [pack_subnormal _ he]
              exact packComponents_parts hscale rfl
      · next hscale =>
          have he : ((unpackExponent b).toNat : Int) -
              (Format.binary64.exponentBias + (52 : Nat)) = (unpackExponent b).toNat - 1075 := by
            rw [exponentBias_eq]
            rfl
          rw [pack_normal _ hnan he]
          exact packComponents_parts rfl rfl

theorem ofBits_toBits (x : Float) : Float.ofBits x.toBits = x := by
  have h : Float.Model.ofBits x.toModel.toBits = x.toModel := by
    have hpack := pack_unpack x.toModel.valid
    cases hx : x.toModel with
    | mk bits valid =>
        rw [hx] at hpack
        rw [Float.Model.ofBits, Float.Model.pack, Float.Model.mk.injEq]
        exact congrArg UInt64.ofBitVec hpack
  show Float.ofModel (Float.Model.ofBits x.toModel.toBits) = x
  rw [h]

theorem compare_self {u : UnpackedFloat} (h : u ≠ .notANumber) : u.compare u = some .eq := by
  cases u with
  | notANumber => exact absurd rfl h
  | infinity s => cases s <;> rfl
  | zero s => rfl
  | finite s m e hm => cases s <;> simp [UnpackedFloat.compare, Ordering.then]

theorem unpack_ne_notANumber {b : BitVec Format.binary64.numBits}
    (h : b.toNat / 2 ^ 52 % 2048 ≠ 2047) :
    UnpackedFloat.unpack Format.binary64 b ≠ .notANumber := by
  have hscale : unpackExponent b ≠ -1#11 := by
    intro hnan
    have := congrArg BitVec.toNat hnan
    apply h
    rw [unpackExponent] at this
    simpa [Nat.shiftRight_eq_div_pow] using this
  unfold UnpackedFloat.unpack
  dsimp only
  split
  · next hnan => exact absurd hnan hscale
  · split
    · split <;> exact fun h => nomatch h
    · exact fun h => nomatch h

theorem beq_self {x : Float} (h : x.toBits.toNat / 2 ^ 52 % 2048 ≠ 2047) : (x == x) = true := by
  have hself := compare_self (unpack_ne_notANumber h)
  exact (congrArg (· == some Ordering.eq) hself).trans rfl

end Bits

theorem twoTo_eq (n : Nat) : twoTo n = 2 ^ n := rfl

theorem ofFloat_finite {x : Float} {m : Nat} {e : Int}
    (h : (Binary64.ofFloat x).magnitude = .finite m e) :
    (x.toBits.toNat / 2 ^ 52 % 2048 = 0 ∧ m = x.toBits.toNat % 2 ^ 52 ∧ e = -1074) ∨
      (0 < x.toBits.toNat / 2 ^ 52 % 2048 ∧ x.toBits.toNat / 2 ^ 52 % 2048 < 2047 ∧
        m = 2 ^ 52 + x.toBits.toNat % 2 ^ 52 ∧
          e = ((x.toBits.toNat / 2 ^ 52 % 2048 : Nat) : Int) - 1075) := by
  simp only [Binary64.ofFloat] at h
  split at h
  · split at h <;> cases h
  · split at h
    · next hzero =>
        cases h
        exact .inl ⟨hzero, rfl, rfl⟩
    · next htop hzero =>
        cases h
        rw [twoTo_eq] at htop hzero
        exact .inr ⟨by omega, by omega, rfl, rfl⟩

theorem isDouble_of_ofFloat {x : Float} {m : Nat} {e : Int}
    (h : (Binary64.ofFloat x).magnitude = .finite m e) : IsDouble m e := by
  rcases ofFloat_finite h with ⟨-, rfl, rfl⟩ | ⟨hpos, hlt, rfl, rfl⟩
  · exact ⟨by omega, by omega, by omega, .inl rfl⟩
  · exact ⟨by omega, by omega, by omega, .inr (by omega)⟩

theorem magnitudeBits_ofFloat {x : Float} {m : Nat} {e : Int}
    (h : (Binary64.ofFloat x).magnitude = .finite m e) :
    Binary64.magnitudeBits (.finite m e) =
      x.toBits.toNat / 2 ^ 52 % 2048 * 2 ^ 52 + x.toBits.toNat % 2 ^ 52 := by
  rcases ofFloat_finite h with ⟨hzero, rfl, rfl⟩ | ⟨hpos, hlt, rfl, rfl⟩
  · rw [Binary64.magnitudeBits, if_pos (by rw [twoTo_eq]; omega), hzero]
    omega
  · have hscale : ((x.toBits.toNat / 2 ^ 52 % 2048 : Nat) - 1075 + 1075 : Int).toNat =
        x.toBits.toNat / 2 ^ 52 % 2048 := by rw [sub_add_cancel, Int.toNat_natCast]
    rw [Binary64.magnitudeBits, if_neg (by rw [twoTo_eq]; omega), hscale, twoTo_eq,
      Nat.add_sub_cancel_left]

theorem toFloat_ofFloat {x : Float} {m : Nat} {e : Int}
    (h : (Binary64.ofFloat x).magnitude = .finite m e) :
    Binary64.toFloat ⟨(Binary64.ofFloat x).negative, .finite m e⟩ = x := by
  have hlt : x.toBits.toNat < 2 ^ 64 := x.toBits.toNat_lt
  have hsign : (if (Binary64.ofFloat x).negative then twoTo 63 else 0) =
      x.toBits.toNat / 2 ^ 63 * 2 ^ 63 := by
    simp only [Binary64.ofFloat, decide_eq_true_eq]
    split
    · next h =>
        rw [twoTo_eq] at h ⊢
        omega
    · next h =>
        rw [twoTo_eq] at h
        omega
  have hbits : x.toBits.toNat / 2 ^ 63 * 2 ^ 63 + (x.toBits.toNat / 2 ^ 52 % 2048 * 2 ^ 52 +
      x.toBits.toNat % 2 ^ 52) = x.toBits.toNat := by omega
  rw [Binary64.toFloat, magnitudeBits_ofFloat h, hsign, hbits, UInt64.ofNat_toNat, ofBits_toBits]

def IsFinite (x : Float) : Prop := ∃ m e, (Binary64.ofFloat x).magnitude = .finite m e

theorem isFinite_iff {x : Float} :
    IsFinite x ↔ (Binary64.ofFloat x).magnitude ≠ .infinite ∧
      (Binary64.ofFloat x).magnitude ≠ .undefined := by
  rw [IsFinite]
  cases (Binary64.ofFloat x).magnitude <;> simp

instance (x : Float) : Decidable (IsFinite x) :=
  decidable_of_iff _ isFinite_iff.symm

theorem IsFinite.beq_self {x : Float} (h : IsFinite x) : (x == x) = true := by
  obtain ⟨m, e, hx⟩ := h
  apply Decimal.beq_self
  rcases ofFloat_finite hx with ⟨h, -⟩ | ⟨-, h, -⟩ <;> omega

end AppSpec.Decimal
