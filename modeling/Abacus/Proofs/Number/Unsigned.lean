import Abacus.Number.Literal
import Abacus.Proofs.Number.Significant

/-!
# `Number.Unsigned` — a literal without a sign is not negative

A text that begins with a digit has no sign, and is none of the words for special numbers. So its value is the number
nearest to a fraction, with a sign bit of zero: it may be infinite, but it is never NaN, and never below zero.

## Contents
- `unpack_cases`, `zero_le_of_toBits` — numbers by their bits;
- `zero_le_nearest` — the nearest number;
- `zero_le_of_read?` — literals.
-/

namespace Abacus
namespace Number

open Float.Model (Format UnpackedFloat)
open Float.Model.UnpackedFloat

/-! ## Bits up to those of infinity -/

/-- Bits up to those of infinity stand for infinity, zero or a finite number, all of them without a sign. -/
theorem unpack_cases {b : BitVec Format.binary64.numBits} (h : b.toNat ≤ infinityBits) :
    unpack .binary64 b = .infinity .positive ∨ unpack .binary64 b = .zero .positive ∨
      ∃ mantissa exponent hpos, unpack .binary64 b = .finite .positive mantissa exponent hpos := by
  have hinfinity : infinityBits = 2047 * twoTo 52 := rfl
  have hsign : decide (twoTo 63 ≤ b.toNat) = false := by
    rw [decide_eq_false_iff_not, Nat.not_le]
    exact Nat.lt_of_le_of_lt h (by decide)
  unfold unpack
  simp only [ofBitVec_unpackSign, hsign]
  by_cases hones : b.toNat / twoTo 52 % twoTo 11 = 2047
  · -- the exponent of infinity leaves no bit for the fraction
    have hle : 2047 ≤ b.toNat / twoTo 52 := hones ▸ Nat.mod_le _ _
    have hbits : 2047 * twoTo 52 ≤ b.toNat := (Nat.le_div_iff_mul_le (twoTo_pos 52)).mp hle
    have hfraction : b.toNat % twoTo 52 = 0 := by
      rw [Nat.le_antisymm h (hinfinity ▸ hbits), hinfinity, Nat.mul_mod_left]
    rw [if_pos ((unpackExponent_eq_ones_iff b).mpr hones), if_pos ((unpackMantissa_eq_zero_iff b).mpr hfraction)]
    exact .inl rfl
  · rw [if_neg (mt (unpackExponent_eq_ones_iff b).mp hones)]
    split
    · split
      · exact .inr (.inl rfl)
      · next hfraction =>
        have hpos : 0 < (unpackMantissa b).toNat := by
          rw [toNat_unpackMantissa]
          exact Nat.pos_of_ne_zero (mt (unpackMantissa_eq_zero_iff b).mpr hfraction)
        exact .inr (.inr ⟨_, _, hpos, rfl⟩)
    · have hpos : 0 < (1#1 ++ unpackMantissa b).toNat := by
        rw [toNat_leading_unpackMantissa]
        exact Nat.add_pos_left (twoTo_pos 52) _
      exact .inr (.inr ⟨_, _, hpos, rfl⟩)

/-- Bits up to those of infinity are those of the number that is made from them. -/
theorem toBits_ofBits_of_le {b : UInt64} (h : b.toNat ≤ infinityBits) : (Float.ofBits b).toBits = b := by
  rcases Nat.lt_or_eq_of_le h with hlt | heq
  · exact toBits_ofBits hlt
  · have hb : b = .ofNat infinityBits := by
      rw [← heq, UInt64.ofNat_toNat]
    rw [hb]
    rfl

theorem unpack_zero : (0 : Float).toModel.unpack = .zero .positive := rfl

/-- Numbers with these bits are not below zero, and they are numbers. -/
theorem zero_le_of_toBits {x : Float} (h : x.toBits.toNat ≤ infinityBits) : 0 ≤ x ∧ x.isNaN = false := by
  have hunpack : x.toModel.unpack = unpack .binary64 x.toModel.toBits.toBitVec := rfl
  have hle : 0 ≤ x ↔ (UnpackedFloat.zero .positive).le x.toModel.unpack = true := by
    show decide ((0 : Float).toModel.le x.toModel = true) = true ↔ _
    rw [decide_eq_true_iff, Float.Model.le, unpack_zero]
  rw [hle, Float.isNaN, Float.Model.isNaN, hunpack]
  rcases unpack_cases (b := x.toModel.toBits.toBitVec) h with hcase | hcase | ⟨mantissa, exponent, hpos, hcase⟩ <;>
    · rw [hcase]
      exact ⟨rfl, rfl⟩

/-! ## Literals -/

theorem zero_le_nearest (num den : Nat) : 0 ≤ nearest false num den ∧ (nearest false num den).isNaN = false := by
  have hbits : magnitudeBits num den ≤ infinityBits := Nat.min_le_left _ _
  have hnat : (UInt64.ofNat (magnitudeBits num den)).toNat = magnitudeBits num den := by
    apply UInt64.toNat_ofNat_of_lt'
    exact Nat.lt_of_le_of_lt hbits (by decide)
  apply zero_le_of_toBits
  unfold nearest
  rw [if_neg Bool.false_ne_true, Nat.add_zero]
  rw [toBits_ofBits_of_le (by rw [hnat]; exact hbits), hnat]
  exact hbits

theorem zero_le_of_readDecimal? {cs : List Char} {x : Float} (h : readDecimal? false cs = some x) :
    0 ≤ x ∧ x.isNaN = false := by
  -- whatever the digits and the exponent are
  have hvalue : ∀ {digits width : Nat} {exponent : Int}, ofScientific false digits width exponent = x →
      0 ≤ x ∧ x.isNaN = false := by
    rintro digits width exponent rfl
    exact zero_le_nearest _ _
  unfold readDecimal? at h
  dsimp only at h
  -- with and without a decimal point
  split at h
  all_goals
    split at h
    · cases h
    · split at h
      · exact hvalue (Option.some.inj h)
      · split at h
        · obtain ⟨exponent, -, hx⟩ := Option.map_eq_some_iff.mp h
          exact hvalue hx
        · cases h

/-- **A literal that begins with a digit is not negative**, and is a number. -/
theorem zero_le_of_read? {text : String} {c : Char} {cs : List Char} (htext : text.toList = c :: cs)
    (hc : c.isDigit = true) {x : Float} (h : read? text = some x) : 0 ≤ x ∧ x.isNaN = false := by
  have hne : ∀ d : Char, d.isDigit = false → c ≠ d := by
    rintro d hd rfl
    rw [hc] at hd
    cases hd
  have hlower : c.toLower = c := by
    have hdigit := hc
    simp only [Char.isDigit, Bool.and_eq_true, decide_eq_true_eq] at hdigit
    unfold Char.toLower
    rw [dif_neg]
    rintro ⟨hlow, -⟩
    exact absurd (UInt32.le_trans hlow hdigit.2) (by decide)
  -- neither a sign nor a letter of a special number is a digit
  unfold read? at h
  rw [htext] at h
  split at h
  · next heq => exact absurd (List.cons.inj heq).1 (hne _ (by decide))
  · next heq => exact absurd (List.cons.inj heq).1 (hne _ (by decide))
  · unfold readMagnitude? at h
    have hn : c ≠ 'n' := hne _ (by decide)
    have hi : c ≠ 'i' := hne _ (by decide)
    simp only [List.map_cons, hlower, List.cons.injEq, hn, hi, false_and, decide_false, Bool.or_self, if_false] at h
    exact zero_le_of_readDecimal? h

end Number
end Abacus
