import Mathlib.Algebra.Field.Rat
import Mathlib.Algebra.Order.Group.Nat
import Mathlib.Algebra.Ring.CharZero
import Abacus.Number.Binary64

/-!
# `Number.Exact` — the rational number behind a binary64 number

`exactValue?` is the value that the binary64 format gives to a number: its sign, its mantissa and its exponent as the
format packs them, `± mantissa · 2^exponent`. NaN and the infinities have none. It owes nothing to the unit counts by
which numbers are decoded, so the agreement of the two (`exactValue?_eq`) is what makes statements about unit counts
statements about numbers.

## Contents
- `exactValue?` — the value of a finite number;
- `Decoded.value?`, `exactValue?_eq` — the value by unit count;
- `decode_units` — how many significant bits a unit count has.
-/

namespace Abacus
namespace Number

open Float.Model (Format UnpackedFloat)
open Float.Model.UnpackedFloat

/-! ## Values -/

/-- What a sign, a mantissa and an exponent are worth. -/
def unpackedValue? : UnpackedFloat → Option ℚ
  | .infinity _ | .notANumber => none
  | .zero _ => some 0
  | .finite sign mantissa exponent _ => some (sign.apply mantissa * 2 ^ exponent)

/-- The exact value of a finite number. -/
def exactValue? (x : Float) : Option ℚ := unpackedValue? x.toModel.unpack

/-- A magnitude with its sign. -/
def signed (negative : Bool) (magnitude : ℚ) : ℚ := if negative then -magnitude else magnitude

/-- Both zeros are worth the same. -/
theorem signed_zero (negative : Bool) : signed negative 0 = 0 := by
  cases negative with
  | false => rfl
  | true => exact neg_zero

/-- The value of a decoded number, if it is finite. -/
def Decoded.value? : Decoded → Option ℚ
  | .finite negative units => some (signed negative (units / one))
  | _ => none

/-! ## Fields of a packed number -/

/-- The powers are kept folded, since some of them are large. -/
theorem twoTo_eq (k : Nat) : twoTo k = 2 ^ k := rfl

theorem twoTo_add (k l : Nat) : twoTo (k + l) = twoTo k * twoTo l := Nat.pow_add 2 k l

theorem one_units_pos : 0 < one := twoTo_pos 1074

theorem one_units_ne : (one : ℚ) ≠ 0 := Nat.cast_ne_zero.mpr (Nat.ne_of_gt one_units_pos)

section Fields

variable (b : BitVec Format.binary64.numBits)

/-- The mantissa are the 52 lowest bits. -/
theorem toNat_unpackMantissa : (unpackMantissa b).toNat = b.toNat % twoTo 52 := by
  simp [unpackMantissa, twoTo_eq]

/-- The exponent are the eleven bits above the mantissa. -/
theorem toNat_unpackExponent : (unpackExponent b).toNat = b.toNat / twoTo 52 % twoTo 11 := by
  simp [unpackExponent, twoTo_eq, Nat.shiftRight_eq_div_pow]

/-- The sign is the highest bit. -/
theorem unpackSign_eq_zero_iff : unpackSign b = 0#1 ↔ b.toNat < twoTo 63 := by
  have hlt : b.toNat < 2 ^ 64 := b.isLt
  have hbit : (unpackSign b).toNat = b.toNat / 2 ^ 63 % 2 := by
    show (b.extractLsb 63 63).toNat = _
    rw [BitVec.extractLsb_toNat, Nat.shiftRight_eq_div_pow]
  rw [← BitVec.toNat_inj, hbit, twoTo_eq, BitVec.toNat_zero]
  omega

/-- All ones in the exponent mark what is not finite. -/
theorem unpackExponent_eq_ones_iff : unpackExponent b = -1#_ ↔ b.toNat / twoTo 52 % twoTo 11 = 2047 := by
  rw [← toNat_unpackExponent, ← BitVec.toNat_inj]
  rfl

/-- All zeros mark a number that is not normal. -/
theorem unpackExponent_eq_zero_iff : unpackExponent b = 0#_ ↔ b.toNat / twoTo 52 % twoTo 11 = 0 := by
  rw [← toNat_unpackExponent, ← BitVec.toNat_inj]
  rfl

theorem unpackMantissa_eq_zero_iff : unpackMantissa b = 0#_ ↔ b.toNat % twoTo 52 = 0 := by
  rw [← toNat_unpackMantissa, ← BitVec.toNat_inj]
  rfl

/-- The mantissa of a normal number has a leading one that is not packed. -/
theorem toNat_leading_unpackMantissa : (1#1 ++ unpackMantissa b).toNat = twoTo 52 + b.toNat % twoTo 52 := by
  have hlt : (unpackMantissa b).toNat < 2 ^ 52 := (unpackMantissa b).isLt
  rw [BitVec.toNat_append, ← toNat_unpackMantissa]
  exact (Nat.shiftLeft_add_eq_or_of_lt hlt 1).symm

end Fields

/-! ## By unit count -/

/-- Powers with a negative exponent become fractions of a unit. -/
theorem two_zpow_eq (shift : Nat) : (2 : ℚ) ^ ((shift : Int) - 1074) = (twoTo shift : ℚ) / one := by
  have hint : (1074 : Int) = ((1074 : Nat) : Int) := rfl
  rw [hint, zpow_sub₀ two_ne_zero, zpow_natCast, zpow_natCast, one, twoTo_eq, twoTo_eq, Nat.cast_pow,
    Nat.cast_pow, Nat.cast_ofNat]

/-- A mantissa shifted by its exponent is a count of units. -/
theorem unpackedValue?_finite (negative : Bool) (shift : Nat) {mantissa : Nat} {exponent : Int}
    (hpos : 0 < mantissa) (hexponent : exponent = (shift : Int) - 1074) :
    unpackedValue? (.finite (if negative then .negative else .positive) mantissa exponent hpos) =
      (Decoded.finite negative (mantissa * twoTo shift)).value? := by
  have hvalue : (mantissa : ℚ) * (twoTo shift / one) = ((mantissa * twoTo shift : Nat) : ℚ) / one := by
    rw [Nat.cast_mul, mul_div_assoc]
  subst hexponent
  show some (((if negative then Sign.negative else Sign.positive).apply mantissa : ℚ) * 2 ^ ((shift : Int) - 1074)) = _
  rw [two_zpow_eq, Decoded.value?, ← hvalue]
  cases negative with
  | false => rfl
  | true =>
      show some (((-(mantissa : Int) : Int) : ℚ) * _) = some (-_)
      rw [Int.cast_neg, Int.cast_natCast, neg_mul]

/-- The sign bit of a packed number. -/
theorem ofBitVec_unpackSign (b : BitVec Format.binary64.numBits) :
    Sign.ofBitVec (unpackSign b) = if decide (twoTo 63 ≤ b.toNat) then .negative else .positive := by
  have hsign := unpackSign_eq_zero_iff b
  unfold Sign.ofBitVec
  by_cases h : b.toNat < twoTo 63
  · rw [if_pos (hsign.mpr h), if_neg (by simpa using h)]
  · rw [if_neg (mt hsign.mp h), if_pos (by simpa using h)]

/-- **A number is worth its count of units.** -/
theorem exactValue?_eq (x : Float) : exactValue? x = (decode x).value? := by
  have hbits : x.toBits.toNat = x.toModel.toBits.toBitVec.toNat := rfl
  unfold exactValue? Float.Model.unpack decode
  obtain ⟨b, hb⟩ : ∃ b : BitVec Format.binary64.numBits, x.toModel.toBits.toBitVec = b := ⟨_, rfl⟩
  rw [hbits, hb]
  unfold unpack
  dsimp only
  rw [ofBitVec_unpackSign]
  generalize decide (twoTo 63 ≤ b.toNat) = negative
  by_cases hones : b.toNat / twoTo 52 % twoTo 11 = 2047
  · rw [if_pos hones, if_pos ((unpackExponent_eq_ones_iff b).mpr hones)]
    by_cases hfraction : b.toNat % twoTo 52 = 0
    · rw [if_pos hfraction, if_pos ((unpackMantissa_eq_zero_iff b).mpr hfraction)]
      rfl
    · rw [if_neg hfraction, if_neg (mt (unpackMantissa_eq_zero_iff b).mp hfraction)]
      rfl
  · rw [if_neg hones, if_neg (mt (unpackExponent_eq_ones_iff b).mp hones)]
    by_cases hzero : b.toNat / twoTo 52 % twoTo 11 = 0
    · rw [if_pos hzero, if_pos ((unpackExponent_eq_zero_iff b).mpr hzero)]
      by_cases hfraction : b.toNat % twoTo 52 = 0
      · rw [dif_pos ((unpackMantissa_eq_zero_iff b).mpr hfraction), hfraction]
        rw [Decoded.value?, Nat.cast_zero, zero_div, signed_zero]
        rfl
      · rw [dif_neg (mt (unpackMantissa_eq_zero_iff b).mp hfraction)]
        rw [unpackedValue?_finite negative 0, toNat_unpackMantissa, twoTo_eq 0, pow_zero, mul_one]
        rw [toNat_unpackExponent, hzero]
        rfl
    · rw [if_neg hzero, if_neg (mt (unpackExponent_eq_zero_iff b).mp hzero)]
      rw [unpackedValue?_finite negative (b.toNat / twoTo 52 % twoTo 11 - 1),
        toNat_leading_unpackMantissa]
      rw [toNat_unpackExponent]
      have hbias : Format.binary64.exponentBias = 1023 := rfl
      rw [hbias]
      omega

/-- A number has at most 53 significant bits. -/
theorem decode_units {x : Float} {negative : Bool} {units : Nat} (h : decode x = .finite negative units) :
    ∃ mantissa shift, units = mantissa * twoTo shift ∧ mantissa < twoTo 53 := by
  have hfraction : x.toBits.toNat % twoTo 52 < twoTo 52 := Nat.mod_lt _ (twoTo_pos 52)
  unfold decode at h
  simp only at h
  split at h
  · split at h <;> cases h
  · split at h
    · cases h
      exact ⟨_, 0, (Nat.mul_one _).symm, Nat.lt_trans hfraction (by decide)⟩
    · cases h
      refine ⟨_, _, rfl, ?_⟩
      have hdouble : twoTo 53 = twoTo 52 * 2 := rfl
      omega

end Number
end Abacus
