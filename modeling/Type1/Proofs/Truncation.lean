import Mathlib
import Type1.Proofs.RoundedNumbers

/-!
# Numbers below zero as indices

A number is read as an index by its integer part, and the integer part is that of the magnitude with
the sign put back. So of the numbers below zero those above -1 have the integer part 0 and are read
as the index 0, and no other is an index.

* `Number.Canonical`: the mantissas and exponents that bits stand for. `Number.unpack_abs`: the
  absolute value has the same mantissa and exponent.
* `Number.toNat_toUInt32_abs`: the magnitude without its fractional bits.
* `Number.truncate?_of_neg`: the integer part of a number below zero.
* `Number.toIndex?_of_neg`: the index that it is read as.
-/

open Float.Model
open UnpackedFloat (Sign ExtendedMantissa packComponents unpackSign unpackExponent unpackMantissa
  unpackSign_packComponents unpackExponent_packComponents unpackMantissa_packComponents)

namespace Type1.Number

variable {v w : Number} {s : Sign} {m : Nat} {e : Int} {hm : 0 < m}

/-! ## Mantissas and exponents -/

/-- A mantissa and an exponent that the bits of a number stand for: the mantissa has 24 bits, and
the first of them is not zero unless the exponent is the least one. -/
structure Canonical (m : Nat) (e : Int) : Prop where
  lt : m < 16777216
  le : -149 < e → 8388608 ≤ m

theorem canonical_unpack {b : BitVec Format.binary32.numBits}
    (h : UnpackedFloat.unpack .binary32 b = .finite s m e hm) : Canonical m e := by
  have hbias : (Format.binary32.exponentBias : Int) = 127 := rfl
  have hlt : (unpackMantissa b).toNat < 8388608 := (unpackMantissa b).isLt
  unfold UnpackedFloat.unpack at h
  dsimp only at h
  split_ifs at h with hones hnan hzero hnone
  · cases h
    refine ⟨by omega, fun he => ?_⟩
    rw [hzero, hbias] at he
    simp at he
  · cases h
    have hbits : (1#1 ++ unpackMantissa b).toNat = 8388608 + (unpackMantissa b).toNat := by
      rw [BitVec.toNat_append, ← Nat.shiftLeft_add_eq_or_of_lt (unpackMantissa b).isLt]
      rfl
    rw [hbits]
    exact ⟨by omega, fun _ => by omega⟩

/-- Bits that differ in their sign alone stand for one mantissa and one exponent. -/
theorem unpack_of_same {b c : BitVec Format.binary32.numBits}
    (hexponent : unpackExponent c = unpackExponent b)
    (hmantissa : unpackMantissa c = unpackMantissa b)
    (h : UnpackedFloat.unpack .binary32 b = .finite s m e hm) :
    UnpackedFloat.unpack .binary32 c = .finite (.ofBitVec (unpackSign c)) m e hm := by
  unfold UnpackedFloat.unpack at h ⊢
  dsimp only at h ⊢
  simp only [hexponent, hmantissa]
  split_ifs at h ⊢ <;> cases h <;> rfl

/-- The absolute value has the bits of the number but for the sign. -/
theorem pack_abs (f : UnpackedFloat) :
    UnpackedFloat.pack .binary32 f.abs = packComponents .binary32 .positive
      (unpackExponent (UnpackedFloat.pack .binary32 f))
      (unpackMantissa (UnpackedFloat.pack .binary32 f)) := by
  have hparts {s x y} : packComponents .binary32 .positive x y = packComponents .binary32 .positive
      (unpackExponent (packComponents .binary32 s x y))
      (unpackMantissa (packComponents .binary32 s x y)) := by
    rw [unpackExponent_packComponents, unpackMantissa_packComponents]
  cases f with
  | notANumber => exact hparts
  | infinity s => exact hparts
  | zero s => exact hparts
  | finite s m e hm =>
    unfold UnpackedFloat.abs UnpackedFloat.pack UnpackedFloat.packedInfinity
    dsimp only
    split
    · exact hparts
    · split <;> exact hparts

theorem unpack_abs (h : v.toModel.unpack = .finite s m e hm) :
    v.abs.toModel.unpack = .finite .positive m e hm := by
  have hpack : UnpackedFloat.pack .binary32 v.toModel.unpack = bits v :=
    UnpackedFloat.pack_unpack_of_valid v.toModel.valid
  have habs := pack_abs v.toModel.unpack
  rw [hpack] at habs
  show UnpackedFloat.unpack .binary32 (UnpackedFloat.pack .binary32 v.toModel.unpack.abs) = _
  rw [habs]
  refine (unpack_of_same ?_ ?_ h).trans ?_
  · exact unpackExponent_packComponents
  · exact unpackMantissa_packComponents
  · rw [unpackSign_packComponents]
    rfl

/-! ## Without the fractional bits -/

theorem mantissa_shiftRight (n : Nat) (x : ExtendedMantissa) :
    (x >>> n).mantissa = x.mantissa / 2 ^ n := by
  show (n.repeat ExtendedMantissa.shiftRightOne x).mantissa = _
  induction n with
  | zero => exact (Nat.div_one _).symm
  | succ n ih =>
    show (n.repeat ExtendedMantissa.shiftRightOne x).mantissa / 2 = _
    rw [ih, Nat.div_div_eq_div_mul, Nat.pow_succ]

theorem roundToInt_positive (m : Nat) (e : Int) :
    UnpackedFloat.roundToInt .positive m e = (m * 2 ^ e.toNat / 2 ^ (-e).toNat : Nat) := by
  unfold UnpackedFloat.roundToInt UnpackedFloat.decreaseExponent UnpackedFloat.shiftToExponent
  dsimp only
  have hshift : (0 - (e - (e - 0).toNat)).toNat = (-e).toNat := by omega
  rw [mantissa_shiftRight, hshift, Int.sub_zero, Nat.shiftLeft_eq]
  rfl

theorem toNat_ofNatClamp (n : Nat) : (UInt32.ofNatClamp n).toNat = min n 4294967295 := by
  have hsize : UInt32.size = 4294967296 := rfl
  unfold UInt32.ofNatClamp
  split <;> rw [UInt32.toNat_ofNatLT] <;> omega

/-- The magnitude as an integer: its fractional bits are dropped, and it is cut off at the greatest
integer of 32 bits. -/
theorem toNat_toUInt32_abs (h : v.toModel.unpack = .finite s m e hm) :
    v.abs.toUInt32.toNat = min (m * 2 ^ e.toNat / 2 ^ (-e).toNat) 4294967295 := by
  show (UInt32.ofNatClamp (v.abs.toModel.unpack.toInt 0 _).toNat).toNat = _
  rw [unpack_abs h, toNat_ofNatClamp]
  show min (UnpackedFloat.roundToInt .positive m e).toNat _ = _
  rw [roundToInt_positive]
  rfl

/-! ## Comparisons -/

theorem lt_iff : v < w ↔ v.toModel.unpack.compare w.toModel.unpack = some .lt := by
  show decide (UnpackedFloat.lt v.toModel.unpack w.toModel.unpack = true) = true ↔ _
  rw [decide_eq_true_iff, UnpackedFloat.lt, beq_iff_eq]

theorem le_iff : v ≤ w ↔ (v.toModel.unpack.compare w.toModel.unpack).any (·.isLE) = true := by
  show decide (UnpackedFloat.le v.toModel.unpack w.toModel.unpack = true) = true ↔ _
  rw [decide_eq_true_iff, UnpackedFloat.le]

/-- A number below zero has a magnitude, which may be infinite. -/
theorem unpack_of_neg (h : v < 0) : v.toModel.unpack = .infinity .negative ∨
    ∃ m e hm, v.toModel.unpack = .finite .negative m e hm := by
  have hzero : (0 : Number).toModel.unpack = .zero .positive := rfl
  rw [lt_iff, hzero] at h
  cases hv : v.toModel.unpack with
  | notANumber => rw [hv] at h; cases h
  | zero s => rw [hv] at h; cases h
  | infinity s =>
    rw [hv] at h
    cases s with
    | positive => cases h
    | negative => exact .inl rfl
  | finite s m e hm =>
    rw [hv] at h
    cases s with
    | positive => cases h
    | negative => exact .inr ⟨m, e, hm, rfl⟩

theorem unpack_neg_one : (-1 : Number).toModel.unpack =
    .finite .negative 8388608 (-23) (by decide) := rfl

theorem unpack_wordLimit : wordLimit.toModel.unpack = .finite .positive 8388608 8 (by decide) := by
  have hbits : bits wordLimit = 0x4f000000#32 := by decide +kernel
  show UnpackedFloat.unpack .binary32 (bits wordLimit) = _
  rw [hbits]
  rfl

theorem unpack_neg_wordLimit : (-wordLimit).toModel.unpack =
    .finite .negative 8388608 8 (by decide) := by
  have hbits : bits (-wordLimit) = 0xcf000000#32 := by decide +kernel
  show UnpackedFloat.unpack .binary32 (bits (-wordLimit)) = _
  rw [hbits]
  rfl

/-- The numbers between -1 and 0 are those of an exponent that leaves no bit before the point. -/
theorem neg_one_lt_iff (h : v.toModel.unpack = .finite .negative m e hm) : -1 < v ↔ e < -23 := by
  have hcanonical : Canonical m e := canonical_unpack h
  rw [lt_iff, unpack_neg_one, h]
  show some ((compare (-23) e).then (compare 8388608 m)).swap = some .lt ↔ _
  rw [Option.some_inj, Ordering.swap_eq_lt, Ordering.then_eq_gt, Int.compare_eq_gt]
  refine or_iff_left fun ⟨heq, hgt⟩ => ?_
  have he := Int.compare_eq_eq.1 heq
  have hlt := Nat.compare_eq_gt.1 hgt
  have hle := hcanonical.le (by omega)
  omega

/-- A magnitude of an exponent that leaves no bit before the point is below 1, and any other is
not. -/
theorem lt_pow_iff (h : Canonical m e) : m * 2 ^ e.toNat < 2 ^ (-e).toNat ↔ e < -23 := by
  obtain ⟨hlt, hle⟩ := h
  by_cases he : e < -23
  · have hpow : 2 ^ 24 ≤ 2 ^ (-e).toNat := Nat.pow_le_pow_right (by decide) (by omega)
    have hwhole : e.toNat = 0 := by omega
    rw [hwhole]
    exact iff_of_true (by omega) he
  · have hpow : 2 ^ (-e).toNat ≤ 2 ^ 23 := Nat.pow_le_pow_right (by decide) (by omega)
    have hmul : m * 1 ≤ m * 2 ^ e.toNat := Nat.mul_le_mul_left m Nat.one_le_two_pow
    have hm := hle (by omega)
    exact iff_of_false (by omega) he

/-! ## Integer parts -/

/-- The integer part of a number below zero is 0 if the number is above -1, and else below zero, if
there is one at all. -/
theorem truncate?_of_neg (h : v < 0) : ∃ k : Nat, (k = 0 ↔ -1 < v) ∧
    v.truncate? = if -wordLimit ≤ v then some (-(k : Int)) else none := by
  rcases unpack_of_neg h with hinf | ⟨m, e, hm, hfinite⟩
  · have hone : ¬ -1 < v := by
      rw [lt_iff, unpack_neg_one, hinf]
      nofun
    have hle : ¬ -wordLimit ≤ v := by
      rw [le_iff, unpack_neg_wordLimit, hinf]
      nofun
    refine ⟨1, iff_of_false (by decide) hone, ?_⟩
    rw [truncate?, if_neg (fun hrange => hle hrange.1), if_neg hle]
  · have hcanonical : Canonical m e := canonical_unpack hfinite
    have hlimit : v < wordLimit := by
      rw [lt_iff, unpack_wordLimit, hfinite]
      rfl
    refine ⟨v.abs.toUInt32.toNat, ?_, ?_⟩
    · rw [toNat_toUInt32_abs hfinite, neg_one_lt_iff hfinite, ← lt_pow_iff hcanonical,
        ← Nat.div_eq_zero_iff_lt (Nat.two_pow_pos _)]
      omega
    · rw [truncate?]
      simp only [hlimit, and_true, if_pos h]

theorem neg_wordLimit_le (h : v < 0) (hone : -1 < v) : -wordLimit ≤ v := by
  rcases unpack_of_neg h with hinf | ⟨m, e, hm, hfinite⟩
  · rw [lt_iff, unpack_neg_one, hinf] at hone
    cases hone
  · have he := (neg_one_lt_iff hfinite).1 hone
    have hgt : compare (8 : Int) e = .gt := Int.compare_eq_gt.2 (by omega)
    rw [le_iff, unpack_neg_wordLimit, hfinite]
    show (((compare (8 : Int) e).then (compare 8388608 m)).swap.isLE) = true
    rw [hgt]
    rfl

/-- Of the numbers below zero those above -1 are the index 0, and no other is an index. -/
theorem toIndex?_of_neg (h : v < 0) : v.toIndex? = if -1 < v then some 0 else none := by
  obtain ⟨k, hk, htruncate⟩ := truncate?_of_neg h
  rw [toIndex?, htruncate]
  by_cases hone : -1 < v
  · obtain rfl := hk.2 hone
    rw [if_pos (neg_wordLimit_le h hone), if_pos hone]
    rfl
  · obtain ⟨j, rfl⟩ := Nat.exists_eq_succ_of_ne_zero (mt hk.1 hone)
    rw [if_neg hone]
    split_ifs <;> rfl

end Type1.Number
