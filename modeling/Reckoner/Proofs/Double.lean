import Mathlib
import Reckoner.Number.Double

/-! Sign and magnitude of doubles. Negation changes the sign and nothing else, the finite doubles are
those whose magnitude is below that of infinity, and a double is made up of its sign and its
magnitude. -/

namespace Reckoner.Number

open Float.Model Float.Model.UnpackedFloat

theorem packComponents_mod (sign : Sign) (e : BitVec 11) (m : BitVec 52) :
    (packComponents Format.binary64 sign e m).toNat % signWeight =
      e.toNat * exponentWeight + m.toNat := by
  have he := e.isLt
  have hm := m.isLt
  have happend : (packComponents Format.binary64 sign e m).toNat =
      (sign.toBitVec.toNat * 2 ^ 11 + e.toNat) * 2 ^ 52 + m.toNat := by
    unfold packComponents
    rw [BitVec.toNat_append, BitVec.toNat_append, ← Nat.shiftLeft_add_eq_or_of_lt he,
      ← Nat.shiftLeft_add_eq_or_of_lt hm, Nat.shiftLeft_eq, Nat.shiftLeft_eq]
  rw [happend]
  unfold signWeight exponentWeight
  omega

theorem pack_neg_mod (u : UnpackedFloat) :
    (UnpackedFloat.pack Format.binary64 u.neg).toNat % signWeight =
      (UnpackedFloat.pack Format.binary64 u).toNat % signWeight := by
  cases u with
  | notANumber => rfl
  | infinity sign =>
    simp only [UnpackedFloat.neg, UnpackedFloat.pack, packedInfinity, packComponents_mod]
  | zero sign =>
    simp only [UnpackedFloat.neg, UnpackedFloat.pack, packedZero, packComponents_mod]
  | finite sign m e hm =>
    simp only [UnpackedFloat.neg, UnpackedFloat.pack, packedInfinity]
    split
    · simp only [packComponents_mod]
    · split <;> simp only [packComponents_mod]

@[simp] theorem magnitude_neg (x : Float) : magnitude (-x) = magnitude x := by
  have hbits : UnpackedFloat.pack Format.binary64 x.toModel.unpack = x.toBits.toBitVec :=
    pack_unpack_of_valid x.toModel.valid
  change (UnpackedFloat.pack Format.binary64 x.toModel.unpack.neg).toNat % signWeight = _
  rw [pack_neg_mod, hbits]
  rfl

theorem toNat_unpackExponent (b : BitVec 64) :
    (@unpackExponent Format.binary64 b).toNat = b.toNat / exponentWeight % 2 ^ 11 := by
  simp [unpackExponent, exponentWeight, Nat.shiftRight_eq_div_pow]

theorem isFinite_unpack (b : BitVec 64) :
    (UnpackedFloat.unpack Format.binary64 b).isFinite = true ↔
      @unpackExponent Format.binary64 b ≠ -1#11 := by
  unfold UnpackedFloat.unpack
  grind [UnpackedFloat.isFinite]

theorem isFinite_iff (x : Float) : x.isFinite = true ↔ magnitude x < infinity := by
  change (UnpackedFloat.unpack Format.binary64 x.toBits.toBitVec).isFinite = true ↔ _
  rw [isFinite_unpack, ne_eq, ← BitVec.toNat_inj, toNat_unpackExponent]
  have hlt := x.toBits.toNat_lt
  simp only [magnitude, infinity, exponentWeight, signWeight]
  change ¬ (x.toBits.toNat / _ % _ = 2047) ↔ _
  omega

@[simp] theorem ofMagnitude_magnitude (x : Float) :
    ofMagnitude (isNegative x) (magnitude x) = x := by
  have hlt := x.toBits.toNat_lt
  have hbits : UInt64.ofNat (if isNegative x then signWeight + magnitude x else magnitude x) =
      x.toBits := by
    rw [← UInt64.toNat_inj]
    simp only [isNegative, magnitude, signWeight, UInt64.toNat_ofNat']
    grind
  rw [ofMagnitude, hbits, Float.ofBits_toBits]

theorem toNat_toBits_ofMagnitude (negative : Bool) {bits : Nat} (h : bits < infinity) :
    (ofMagnitude negative bits).toBits.toNat = if negative then signWeight + bits else bits := by
  set word := UInt64.ofNat (if negative then signWeight + bits else bits) with hword
  have hbits : word.toNat = if negative then signWeight + bits else bits := by
    rw [hword, UInt64.toNat_ofNat']
    unfold infinity exponentWeight at h
    unfold signWeight
    apply Nat.mod_eq_of_lt
    split <;> omega
  have hexponent : @unpackExponent Format.binary64 word.toBitVec ≠ -1#11 := by
    rw [ne_eq, ← BitVec.toNat_inj, toNat_unpackExponent]
    change ¬ word.toNat / exponentWeight % 2 ^ 11 = 2047
    rw [hbits]
    unfold infinity at h
    unfold signWeight exponentWeight at *
    split <;> omega
  have hvalid : Format.binary64.Valid word.toBitVec := ⟨fun hspecial => absurd hspecial hexponent⟩
  have hpack : UnpackedFloat.pack Format.binary64 (UnpackedFloat.unpack Format.binary64 word.toBitVec) =
      word.toBitVec := pack_unpack_of_valid hvalid
  rw [← hbits]
  exact congrArg BitVec.toNat hpack

theorem isNegative_ofMagnitude (negative : Bool) {bits : Nat} (h : bits < infinity) :
    isNegative (ofMagnitude negative bits) = negative := by
  unfold isNegative
  rw [toNat_toBits_ofMagnitude negative h]
  unfold infinity exponentWeight at h
  unfold signWeight
  cases negative with
  | true =>
    simp only [if_true, decide_eq_true_eq]
    omega
  | false =>
    simp only [Bool.false_eq_true, if_false, decide_eq_false_iff_not]
    omega

theorem magnitude_ofMagnitude (negative : Bool) {bits : Nat} (h : bits < infinity) :
    magnitude (ofMagnitude negative bits) = bits := by
  unfold magnitude
  rw [toNat_toBits_ofMagnitude negative h]
  unfold infinity exponentWeight at h
  unfold signWeight
  split <;> omega

end Reckoner.Number
