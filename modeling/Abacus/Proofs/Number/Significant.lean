import Mathlib
import Abacus.Number.Integer
import Abacus.Proofs.Number.Exact

/-!
# `Number.Significant` — rounding to 53 significant bits

A whole number rounded to 53 significant bits can be larger than it was, so to be below the rounded number is less
than to be below the number itself. For a number that has no more significant bits itself it is the same: none lies
between a number and what it is rounded to.

That a valid number can be packed and unpacked again (`pack_unpack_of_valid`) is a lemma of Batteries that nothing
smaller than `Mathlib` imports.

## Contents
- `roundDiv_cases` — a rounded quotient is one of two;
- `roundSignificant_eq` — up to `2^53` nothing is rounded;
- `lt_of_lt_roundSignificant` — no binary64 number lies between a number and its rounding;
- `exactValue?_ofNat` — the rounded number is the value of the nearest binary64 number.
-/

namespace Abacus
namespace Number

open Float.Model (Format)
open Float.Model.UnpackedFloat

/-! ## Rounded quotients -/

section RoundDiv

variable {num den : Nat}

/-- A rounded quotient is the quotient, or the next number if at least half is left. -/
theorem roundDiv_cases (num den : Nat) :
    (roundDiv num den = num / den ∧ 2 * (num % den) ≤ den) ∨
      (roundDiv num den = num / den + 1 ∧ den ≤ 2 * (num % den)) := by
  unfold roundDiv
  dsimp only
  by_cases hless : 2 * (num % den) < den
  · rw [if_pos hless]
    exact .inl ⟨rfl, Nat.le_of_lt hless⟩
  · rw [if_neg hless]
    by_cases hmore : den < 2 * (num % den)
    · rw [if_pos hmore]
      exact .inr ⟨rfl, Nat.le_of_lt hmore⟩
    · rw [if_neg hmore]
      -- exactly half is left, and the even neighbour is taken
      rcases Nat.mod_two_eq_zero_or_one (num / den) with heven | hodd
      · exact .inl ⟨by rw [heven, Nat.add_zero], by omega⟩
      · exact .inr ⟨by rw [hodd], by omega⟩

theorem roundDiv_of_dvd (h : den ∣ num) (hpos : 0 < den) : roundDiv num den = num / den := by
  have hrest : num % den = 0 := Nat.mod_eq_zero_of_dvd h
  rcases roundDiv_cases num den with ⟨heq, -⟩ | ⟨-, hle⟩
  · exact heq
  · omega

/-- A fraction that is expanded is rounded as before. -/
theorem roundDiv_mul_right (num den : Nat) {c : Nat} (hc : 0 < c) :
    roundDiv (num * c) (den * c) = roundDiv num den := by
  have hless (a b : Nat) : a * c < b * c ↔ a < b := Nat.mul_lt_mul_right hc
  unfold roundDiv
  simp only [Nat.mul_div_mul_right _ _ hc, Nat.mul_mod_mul_right, ← Nat.mul_assoc, hless]

end RoundDiv

/-! ## Significant bits -/

/-- A number that has at most 53 significant bits. -/
def Significant (n : Nat) : Prop := ∃ mantissa shift, n = mantissa * twoTo shift ∧ mantissa < twoTo 53

/-- Up to `2^53` whole numbers are not rounded. -/
theorem roundSignificant_eq {n : Nat} (h : n ≤ twoTo 53) : roundSignificant n = n := by
  have hdvd : twoTo (n.log2 - 52) ∣ n := by
    by_cases htop : n = twoTo 53
    · rw [htop]
      decide
    · have hlog : n.log2 - 52 = 0 := by
        by_cases hzero : n = 0
        · rw [hzero]
          decide
        · have hlt : n.log2 < 53 := (Nat.log2_lt hzero).mpr (by rw [← twoTo_eq]; omega)
          omega
      rw [hlog]
      exact Nat.one_dvd n
  unfold roundSignificant
  dsimp only
  rw [roundDiv_of_dvd hdvd (twoTo_pos _)]
  exact Nat.div_mul_cancel hdvd

/-- A number of 53 significant bits that reaches `2^(52 + k)` is a multiple of `2^k`. -/
theorem Significant.dvd {n k : Nat} (h : Significant n) (hle : twoTo (52 + k) ≤ n) : twoTo k ∣ n := by
  obtain ⟨mantissa, shift, rfl, hlt⟩ := h
  have hbound : twoTo (52 + k) < twoTo (53 + shift) := by
    calc twoTo (52 + k) ≤ mantissa * twoTo shift := hle
      _ < twoTo 53 * twoTo shift := Nat.mul_lt_mul_of_pos_right hlt (twoTo_pos shift)
      _ = twoTo (53 + shift) := (Nat.pow_add 2 53 shift).symm
  have hexponents : 52 + k < 53 + shift := (Nat.pow_lt_pow_iff_right (by decide)).mp hbound
  exact Nat.dvd_mul_left_of_dvd (Nat.pow_dvd_pow 2 (by omega)) mantissa

/-- **No binary64 number lies between a whole number and its rounding.** -/
theorem lt_of_lt_roundSignificant {n m : Nat} (hm : Significant m) (h : m < roundSignificant n) : m < n := by
  unfold roundSignificant at h
  dsimp only at h
  generalize hshift : n.log2 - 52 = shift at h
  have hsplit : n = n / twoTo shift * twoTo shift + n % twoTo shift := (Nat.div_add_mod' n (twoTo shift)).symm
  rcases roundDiv_cases n (twoTo shift) with ⟨hdown, -⟩ | ⟨hup, hhalf⟩
  · rw [hdown] at h
    omega
  · rw [hup] at h
    have hpos := twoTo_pos shift
    -- something is left over, so the shift is not zero and `n` has more than 53 bits
    have hlarge : twoTo (52 + shift) ≤ n := by
      have hne : n ≠ 0 := by
        rintro rfl
        rw [Nat.zero_mod] at hhalf
        omega
      by_cases hzero : shift = 0
      · rw [hzero] at hhalf
        exact absurd hhalf (by rw [twoTo_eq, Nat.pow_zero, Nat.mod_one]; decide)
      · have hlog : 52 + shift = n.log2 := by omega
        rw [hlog]
        exact Nat.log2_self_le hne
    apply Nat.lt_of_not_le
    intro hle
    obtain ⟨q, rfl⟩ := hm.dvd (Nat.le_trans hlarge hle)
    -- a multiple of the shift's power that is not below `n` is beyond the next one
    have hquotient : n / twoTo shift < q := by
      apply Nat.lt_of_mul_lt_mul_left (a := twoTo shift)
      rw [Nat.mul_comm]
      omega
    have hnext : (n / twoTo shift + 1) * twoTo shift ≤ q * twoTo shift := Nat.mul_le_mul_right _ hquotient
    rw [Nat.mul_comm q] at hnext
    omega

/-! ## The nearest binary64 number -/

/-- Bits below those of infinity are those of the number that is made from them. -/
theorem toBits_ofBits {b : UInt64} (h : b.toNat < infinityBits) : (Float.ofBits b).toBits = b := by
  have hvalid : Format.binary64.Valid b.toBitVec := by
    constructor
    intro hones _
    have hbiased : b.toNat / twoTo 52 % twoTo 11 = 2047 := (unpackExponent_eq_ones_iff b.toBitVec).mp hones
    have hsmall : b.toNat / twoTo 52 < 2047 := Nat.div_lt_of_lt_mul (by rwa [Nat.mul_comm])
    have hmod := Nat.mod_le (b.toNat / twoTo 52) (twoTo 11)
    omega
  show UInt64.ofBitVec (pack .binary64 (unpack .binary64 b.toBitVec)) = b
  rw [pack_unpack_of_valid hvalid]

/-- What bits of a normal number without a sign stand for. -/
theorem decode_ofBits {bits : Nat} (h : bits < infinityBits) (hnormal : twoTo 52 ≤ bits) :
    decode (.ofBits (.ofNat bits)) =
      .finite false ((twoTo 52 + bits % twoTo 52) * twoTo (bits / twoTo 52 - 1)) := by
  have hnat : (UInt64.ofNat bits).toNat = bits := by
    apply UInt64.toNat_ofNat_of_lt'
    exact Nat.lt_trans h (by decide)
  have hpos : 0 < bits / twoTo 52 := Nat.div_pos hnormal (twoTo_pos 52)
  have hlt : bits / twoTo 52 < 2047 := Nat.div_lt_of_lt_mul (by rwa [Nat.mul_comm])
  have hbiased : bits / twoTo 52 % twoTo 11 = bits / twoTo 52 :=
    Nat.mod_eq_of_lt (Nat.lt_trans hlt (by decide))
  have hsign : bits < twoTo 63 := Nat.lt_trans h (by decide)
  unfold decode
  dsimp only
  rw [toBits_ofBits (by rw [hnat]; exact h), hnat, hbiased, if_neg (by omega), if_neg (by omega),
    decide_eq_false (by omega)]

/-- A mantissa added to its shift. One that reaches `2^53` carries into the exponent. -/
theorem decode_packed {shift mantissa : Nat} (hshift : shift < 2045) (hlow : twoTo 52 ≤ mantissa)
    (hhigh : mantissa ≤ twoTo 53) :
    decode (.ofBits (.ofNat (shift * twoTo 52 + mantissa))) = .finite false (mantissa * twoTo shift) := by
  have hdouble : twoTo 53 = 2 * twoTo 52 := rfl
  have hpos := twoTo_pos 52
  have hshifted : shift * twoTo 52 ≤ 2044 * twoTo 52 := Nat.mul_le_mul_right _ (by omega)
  have hinfinity : infinityBits = 2047 * twoTo 52 := rfl
  rw [decode_ofBits (by omega) (by omega)]
  by_cases hcarry : mantissa = twoTo 53
  · have hsucc : twoTo (shift + 1) = 2 * twoTo shift := Nat.pow_succ'
    rw [hcarry, hdouble, ← Nat.add_mul, Nat.mul_mod_left, Nat.mul_div_cancel _ hpos, Nat.add_zero]
    show Decoded.finite false (twoTo 52 * twoTo (shift + 1)) = _
    rw [hsucc, Nat.mul_left_comm, Nat.mul_assoc]
  · obtain ⟨fraction, rfl⟩ := Nat.exists_eq_add_of_le hlow
    have hlt : fraction < twoTo 52 := by omega
    rw [← Nat.add_assoc, ← Nat.succ_mul, Nat.add_comm _ fraction, Nat.add_mul_mod_self_right,
      Nat.mod_eq_of_lt hlt, Nat.add_mul_div_right _ _ hpos, Nat.div_eq_of_lt hlt, Nat.zero_add,
      Nat.succ_sub_one]

theorem log2_mul_twoTo {n : Nat} (h : n ≠ 0) (k : Nat) : (n * twoTo k).log2 = n.log2 + k := by
  have hpos := twoTo_pos k
  apply (Nat.log2_eq_iff (Nat.mul_ne_zero h (Nat.ne_of_gt hpos))).mpr
  rw [Nat.pow_add, Nat.add_right_comm, Nat.pow_add]
  exact ⟨Nat.mul_le_mul_right _ (Nat.log2_self_le h), Nat.mul_lt_mul_of_pos_right Nat.lt_log2_self hpos⟩

/-- A number cut to 53 significant bits, by a shift that may go to the left as well. -/
theorem roundDiv_units {n : Nat} (h : n ≠ 0) :
    ∃ mantissa, roundDiv (n * one) (twoTo (n.log2 + 1022)) = mantissa ∧ twoTo 52 ≤ mantissa ∧
      mantissa ≤ twoTo 53 ∧ mantissa * twoTo (n.log2 + 1022) = roundSignificant n * one := by
  have hlow : twoTo n.log2 ≤ n := Nat.log2_self_le h
  have hhigh : n < twoTo (n.log2 + 1) := Nat.lt_log2_self
  refine ⟨_, rfl, ?_⟩
  by_cases hlarge : 52 ≤ n.log2
  · obtain ⟨shift, hshift⟩ := Nat.exists_eq_add_of_le hlarge
    have hpos := twoTo_pos shift
    have hscale : twoTo (n.log2 + 1022) = twoTo shift * one := by
      rw [one, ← twoTo_add]
      congr 1
      omega
    have hquotient : twoTo 52 ≤ n / twoTo shift ∧ n / twoTo shift < twoTo 53 := by
      rw [Nat.le_div_iff_mul_le hpos, Nat.div_lt_iff_lt_mul hpos, ← twoTo_add, ← twoTo_add, ← hshift]
      rw [hshift, Nat.add_right_comm] at hhigh
      exact ⟨hlow, hhigh⟩
    rw [hscale, roundDiv_mul_right _ _ one_units_pos, roundSignificant, hshift, Nat.add_sub_cancel_left]
    rcases roundDiv_cases n (twoTo shift) with ⟨heq, -⟩ | ⟨heq, -⟩
    · exact ⟨by omega, by omega, by rw [Nat.mul_assoc]⟩
    · exact ⟨by omega, by omega, by rw [Nat.mul_assoc]⟩
  · obtain ⟨shift, hshift⟩ := Nat.exists_eq_add_of_le (Nat.le_of_not_le hlarge)
    have hscale : n * one = n * twoTo shift * twoTo (n.log2 + 1022) := by
      have hunits : 1074 = shift + (n.log2 + 1022) := by omega
      rw [Nat.mul_assoc, ← twoTo_add, ← hunits, one]
    have hround : roundDiv (n * one) (twoTo (n.log2 + 1022)) = n * twoTo shift := by
      rw [hscale, roundDiv_of_dvd (Nat.dvd_mul_left _ _) (twoTo_pos _), Nat.mul_div_cancel _ (twoTo_pos _)]
    have hlow' := Nat.mul_le_mul_right (twoTo shift) hlow
    have hhigh' := Nat.mul_le_mul_right (twoTo shift) (Nat.le_of_lt hhigh)
    rw [← twoTo_add, ← hshift] at hlow'
    rw [← twoTo_add, Nat.add_right_comm, ← hshift] at hhigh'
    have hsmall : n ≤ twoTo 53 := Nat.le_trans (Nat.le_mul_of_pos_right n (twoTo_pos shift)) hhigh'
    rw [hround, ← hscale, roundSignificant_eq hsmall]
    exact ⟨hlow', hhigh', rfl⟩

/-- **The binary64 number nearest to a whole number is worth that number rounded to 53 significant bits.** -/
theorem exactValue?_ofNat {n : Nat} (h : n < twoTo 64) : exactValue? (ofNat n) = some (roundSignificant n : ℚ) := by
  by_cases hzero : n = 0
  · subst hzero
    have hmagnitude : magnitudeBits 0 1 = 0 := by simp [magnitudeBits, roundDiv]
    have hbits : (ofNat 0).toBits = 0 := by
      unfold ofNat nearest
      rw [hmagnitude]
      exact toBits_ofBits (by decide)
    have hdecode : decode (ofNat 0) = .finite false 0 := by
      unfold decode
      rw [hbits]
      decide
    rw [exactValue?_eq, hdecode, roundSignificant_eq (Nat.zero_le _), Decoded.value?, signed, if_neg (by decide),
      Nat.cast_zero, zero_div]
  · have hlog : n.log2 < 64 := (Nat.log2_lt hzero).mpr h
    obtain ⟨mantissa, hmantissa, hlow, hhigh, hvalue⟩ := roundDiv_units hzero
    have hshift : (n * one).log2 - 52 = n.log2 + 1022 := by
      rw [one, log2_mul_twoTo hzero]
      omega
    have hbits : magnitudeBits n 1 = (n.log2 + 1022) * twoTo 52 + mantissa := by
      have hshifted : (n.log2 + 1022) * twoTo 52 ≤ 1085 * twoTo 52 := Nat.mul_le_mul_right _ (by omega)
      have hinfinity : infinityBits = 2047 * twoTo 52 := rfl
      have hdouble : twoTo 53 = 2 * twoTo 52 := rfl
      unfold magnitudeBits
      dsimp only
      rw [Nat.div_one, hshift, Nat.one_mul, hmantissa]
      apply Nat.min_eq_right
      omega
    have hdecode : decode (ofNat n) = .finite false (roundSignificant n * one) := by
      unfold ofNat nearest
      rw [if_neg (by decide), Nat.add_zero, hbits, decode_packed (by omega) hlow hhigh, hvalue]
    rw [exactValue?_eq, hdecode, Decoded.value?, signed, if_neg (by decide), Nat.cast_mul,
      mul_div_cancel_right₀ _ one_units_ne]

end Number
end Abacus
