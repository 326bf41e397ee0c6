import Mathlib
import Type1.Number

/-!
# Numbers that rounding gives

`Number.round` gives whole numbers, infinities and what is not a number, so it gives no half
(`Number.round_ne_half`). A whole number from a magnitude has no fractional bits, so its exponent
is not that of a half (`exponent_toFloat32`), and one below zero has a sign that a half does not
have (`unpackSign_pack_neg`).
-/

open Float.Model
open UnpackedFloat (Sign Accuracy roundWithAccuracy unpackSign unpackExponent
  unpackExponent_packComponents unpackSign_packComponents)

namespace Type1.Number

/-- The bits of a number. -/
def bits (v : Number) : BitVec 32 := v.toModel.toBits.toBitVec

/-! ## Exponents -/

/-- The exponent of a number, as its bits hold it. -/
def exponent (v : Number) : BitVec 8 := @unpackExponent Format.binary32 (bits v)

theorem le_exponent_of_roundWithAccuracy {sign s : Sign} {m m' : Nat} {e e' : Int} {hm : 0 < m'}
    {a : Accuracy} (h : roundWithAccuracy .binary32 sign m e a = .finite s m' e' hm) :
    e ≤ e' := by
  unfold roundWithAccuracy UnpackedFloat.shiftToTargetExponent UnpackedFloat.shiftToExponent at h
  dsimp only at h
  split at h
  · cases h
  · cases h
    omega

/-- A number that is rounded from a natural one has at most the 23 bits behind the point that there
is room for next to a bit before it. -/
theorem le_exponent_of_round {sign s : Sign} {n m : Nat} {e : Int} {hm : 0 < m}
    (h : UnpackedFloat.round .binary32 sign n 0 = .finite s m e hm) : -23 ≤ e := by
  unfold UnpackedFloat.round UnpackedFloat.decreaseExponent at h
  have hle := le_exponent_of_roundWithAccuracy h
  have htarget : -23 ≤ Format.binary32.targetExponent (totalExponent n 0) := by
    unfold Format.targetExponent totalExponent Format.mantissaBits
    dsimp only
    omega
  omega

theorem unpackExponent_pack {s : Sign} {m : Nat} {e : Int} {hm : 0 < m} (h : -23 ≤ e) :
    unpackExponent (UnpackedFloat.pack .binary32 (.finite s m e hm)) ≠ 126#8 := by
  have hbias : Format.binary32.exponentBias = 127 := rfl
  unfold UnpackedFloat.pack UnpackedFloat.packedInfinity
  dsimp only
  split
  · rw [unpackExponent_packComponents]
    decide
  · split
    · rw [unpackExponent_packComponents]
      intro hx
      have := congrArg BitVec.toNat hx
      simp only [BitVec.toNat_ofNat] at this
      omega
    · rw [unpackExponent_packComponents]
      decide

/-- A whole number is 0 or at least 1. -/
theorem exponent_toFloat32 (n : UInt32) : exponent n.toFloat32 ≠ 126#8 := by
  show unpackExponent (UnpackedFloat.pack .binary32
    (UnpackedFloat.normalize .binary32 n.toNat 0 .positive)) ≠ 126#8
  unfold UnpackedFloat.normalize
  split
  · next h =>
    have := Int.compare_eq_lt.1 h
    omega
  · decide
  · cases hr : UnpackedFloat.round .binary32 .positive (n.toNat : Int).toNat 0 with
    | finite s m e hm => exact unpackExponent_pack (le_exponent_of_round hr)
    | zero s => cases s <;> decide
    | infinity s => cases s <;> decide
    | notANumber => decide

/-! ## Signs -/

/-- The number has no sign, or it is none at all. -/
def Unsigned : UnpackedFloat → Prop
  | .infinity s | .zero s | .finite s .. => s = .positive
  | .notANumber => True

theorem unpackSign_pack {f : UnpackedFloat} (h : Unsigned f) :
    unpackSign (UnpackedFloat.pack .binary32 f) = 0#1 := by
  fun_cases UnpackedFloat.pack with
  | case1 => decide
  | case2 s => cases h; decide
  | case3 s => cases h; decide
  | case4 => cases h; decide
  | case5 => cases h; exact unpackSign_packComponents _ _ _
  | case6 => cases h; exact unpackSign_packComponents _ _ _

/-- What is a number and has no sign has one when it is negated. -/
theorem unpackSign_pack_neg {f : UnpackedFloat} (h : Unsigned f) :
    f = .notANumber ∨ unpackSign (UnpackedFloat.pack .binary32 f.neg) = 1#1 := by
  cases f with
  | notANumber => exact .inl rfl
  | infinity s => cases h; exact .inr (by decide)
  | zero s => cases h; exact .inr (by decide)
  | finite s m e hm =>
    cases h
    refine .inr ?_
    unfold UnpackedFloat.neg UnpackedFloat.pack UnpackedFloat.packedInfinity
    dsimp only
    split
    · exact unpackSign_packComponents _ _ _
    · split <;> exact unpackSign_packComponents _ _ _

theorem unsigned_unpack {b : BitVec Format.binary32.numBits} (h : unpackSign b = 0#1) :
    Unsigned (UnpackedFloat.unpack .binary32 b) := by
  have hs : Sign.ofBitVec (unpackSign b) = .positive := by rw [h]; rfl
  unfold UnpackedFloat.unpack
  dsimp only
  rw [hs]
  split
  · split
    · rfl
    · trivial
  · split
    · split <;> rfl
    · rfl

theorem unsigned_normalize {m : Int} (h : 0 ≤ m) (e : Int) :
    Unsigned (UnpackedFloat.normalize .binary32 m e .positive) := by
  unfold UnpackedFloat.normalize
  split
  · next h =>
    have := Int.compare_eq_lt.1 h
    omega
  · rfl
  · unfold UnpackedFloat.round roundWithAccuracy
    dsimp only
    split <;> rfl

theorem unsigned_add {f g : UnpackedFloat} (hf : Unsigned f) (hg : Unsigned g) :
    Unsigned (UnpackedFloat.add .binary32 f g) := by
  cases f <;> cases g <;> cases hf <;> cases hg <;> try trivial
  exact unsigned_normalize (Int.add_nonneg (Int.natCast_nonneg _) (Int.natCast_nonneg _)) _

/-- A whole number below zero is no half. -/
theorem neg_succ_ne_half (n : UInt32) : -(n.toFloat32 + 1) ≠ (0.5 : Number) := by
  have hn : Unsigned (UnpackedFloat.unpack .binary32 (bits n.toFloat32)) :=
    unsigned_unpack (unpackSign_pack (unsigned_normalize (Int.natCast_nonneg n.toNat) 0))
  have hone : Unsigned (UnpackedFloat.unpack .binary32 (bits 1)) := unsigned_unpack (by decide)
  have hsum : Unsigned (UnpackedFloat.unpack .binary32 (bits (n.toFloat32 + 1))) :=
    unsigned_unpack (unpackSign_pack (unsigned_add hn hone))
  intro h
  have hbits : bits (-(n.toFloat32 + 1)) = bits 0.5 := congrArg bits h
  have hneg : bits (-(n.toFloat32 + 1)) =
      UnpackedFloat.pack .binary32 (UnpackedFloat.unpack .binary32 (bits (n.toFloat32 + 1))).neg :=
    rfl
  rw [hneg] at hbits
  rcases unpackSign_pack_neg hsum with hnan | hsign
  · rw [hnan] at hbits
    revert hbits
    decide
  · rw [hbits] at hsign
    revert hsign
    decide

/-! ## Rounding -/

theorem floor_ne_half (v : Number) : v.floor ≠ 0.5 := by
  unfold floor
  dsimp only
  split
  · split
    · next hwhole =>
      rintro rfl
      revert hwhole
      decide
    · split
      · exact neg_succ_ne_half _
      · intro h
        have := exponent_toFloat32 v.abs.toUInt32
        rw [h] at this
        exact this (by decide)
  · next hlarge =>
    rintro rfl
    exact hlarge (by decide)

/-- Nothing is rounded to a half. -/
theorem round_ne_half (v : Number) : v.round ≠ 0.5 := floor_ne_half _

end Type1.Number
