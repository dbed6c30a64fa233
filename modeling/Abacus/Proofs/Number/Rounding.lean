import Abacus.Number.Text
import Abacus.Proofs.Number.Significant

/-!
# `Number.Rounding` — six significant digits, rounded by two routes

A number is rounded to six significant decimal digits to find its decimal exponent. Where the exponent is not written,
the number itself is rounded a second time, to as many decimals as that exponent leaves room for. The exponent is the
one **behind** the first rounding, so if that carried into the next power of ten, the second one keeps one decimal less.

Both give the same number. Without a carry they are the same rounding; with a carry the number is so close to a power
of ten that both arrive there.

## Contents
- `roundHalfEven`, `sixDigits` — what it means to round;
- `roundHalfEven_eq_iff` — the nearest number, a half to the even one;
- `roundAt_eq`, `leadingExponent_eq` — rounding and exponents by unit count;
- `scientific_spec` — both routes.
-/

namespace Abacus
namespace Number

/-! ## To the nearest whole number -/

/-- The nearest whole number, and the even one of two that are equally near. -/
def roundHalfEven (q : ℚ) : ℤ :=
  if Int.fract q < 1 / 2 ∨ (Int.fract q = 1 / 2 ∧ Even ⌊q⌋) then ⌊q⌋ else ⌊q⌋ + 1

/-- `q` rounded to six significant decimal digits, a half to the even digit. -/
def sixDigits (q : ℚ) : ℚ :=
  roundHalfEven (q / 10 ^ (Int.log 10 |q| - 5)) * 10 ^ (Int.log 10 |q| - 5)

/-- `n` is nearest to `q`, and even if another one is as near. -/
def NearestEven (q : ℚ) (n : ℤ) : Prop := |q - n| ≤ 1 / 2 ∧ (|q - n| = 1 / 2 → Even n)

namespace NearestEven

variable {q : ℚ} {n m : ℤ}

theorem neg (h : NearestEven q n) : NearestEven (-q) (-n) := by
  have hsame : |-q - (-n : ℤ)| = |q - n| := by
    rw [Int.cast_neg, ← abs_neg, neg_sub_neg, neg_sub]
  unfold NearestEven
  rw [hsame]
  exact ⟨h.1, fun htie => (h.2 htie).neg⟩

/-- Two of them would be one apart, with `q` in the middle, and cannot both be even. -/
theorem le (hn : NearestEven q n) (hm : NearestEven q m) : n ≤ m := by
  have hnle := abs_le.mp hn.1
  have hmle := abs_le.mp hm.1
  by_contra hlt
  have hstep : (m : ℚ) + 1 ≤ n := by exact_mod_cast not_le.mp hlt
  have hntie : q - n = -(1 / 2) := by linarith
  have hmtie : q - m = 1 / 2 := by linarith
  have hneven := hn.2 (by rw [hntie]; norm_num)
  have hmeven := hm.2 (by rw [hmtie]; norm_num)
  have hnext : n = m + 1 := by exact_mod_cast (by linarith : (n : ℚ) = m + 1)
  rw [hnext, Int.even_add_one] at hneven
  exact hneven hmeven

theorem unique (hn : NearestEven q n) (hm : NearestEven q m) : n = m := le_antisymm (hn.le hm) (hm.le hn)

end NearestEven

theorem nearestEven_roundHalfEven (q : ℚ) : NearestEven q (roundHalfEven q) := by
  have hsplit : q - ⌊q⌋ = Int.fract q := rfl
  have hnonneg := Int.fract_nonneg q
  have hlt := Int.fract_lt_one q
  unfold roundHalfEven NearestEven
  split
  · next hdown =>
    rw [hsplit, abs_of_nonneg hnonneg]
    rcases hdown with hless | ⟨htie, heven⟩
    · exact ⟨hless.le, fun htie => absurd htie hless.ne⟩
    · exact ⟨htie.le, fun _ => heven⟩
  · next hup =>
    push Not at hup
    have hhalf : 1 / 2 ≤ Int.fract q := hup.1
    have hrest : q - (⌊q⌋ + 1 : ℤ) = -(1 - Int.fract q) := by
      rw [Int.cast_add, Int.cast_one, ← hsplit]
      ring
    rw [hrest, abs_neg, abs_of_nonneg (by linarith)]
    refine ⟨by linarith, fun htie => ?_⟩
    rw [Int.even_add_one]
    exact hup.2 (by linarith)

/-- **The nearest number, a half to the even one.** -/
theorem roundHalfEven_eq_iff {q : ℚ} {n : ℤ} : roundHalfEven q = n ↔ NearestEven q n := by
  constructor
  · rintro rfl
    exact nearestEven_roundHalfEven q
  · exact (nearestEven_roundHalfEven q).unique

theorem roundHalfEven_neg (q : ℚ) : roundHalfEven (-q) = -roundHalfEven q :=
  roundHalfEven_eq_iff.mpr (nearestEven_roundHalfEven q).neg

theorem sixDigits_neg (q : ℚ) : sixDigits (-q) = -sixDigits q := by
  rw [sixDigits, sixDigits, abs_neg, neg_div, roundHalfEven_neg, Int.cast_neg, neg_mul]

/-! ## By unit count -/

section Fractions

variable {num den : Nat}

/-- Of two quotients that are equally near, the even one is taken. -/
theorem even_roundDiv (h : 2 * (num % den) = den) : Even (roundDiv num den) := by
  unfold roundDiv
  dsimp only
  rw [if_neg (by omega), if_neg (by omega), Nat.even_iff]
  omega

/-- How far `n` is from a fraction, counted in parts of its denominator. -/
theorem nearestEven_div_iff (hden : 0 < den) {n : ℤ} :
    NearestEven ((num : ℚ) / den) n ↔
      2 * |(num : ℤ) - n * den| ≤ den ∧ (2 * |(num : ℤ) - n * den| = den → Even n) := by
  have hpos : (0 : ℚ) < den := Nat.cast_pos.mpr hden
  have hdistance : |(num : ℚ) / den - n| = (|(num : ℤ) - n * den| : ℤ) / (den : ℚ) := by
    rw [Int.cast_abs, ← abs_of_pos hpos, ← abs_div, abs_of_pos hpos, Int.cast_sub, Int.cast_mul, Int.cast_natCast,
      Int.cast_natCast, sub_div, mul_div_cancel_right₀ _ hpos.ne']
  unfold NearestEven
  rw [hdistance, div_le_div_iff₀ hpos two_pos, div_eq_div_iff hpos.ne' two_ne_zero]
  norm_cast
  rw [mul_comm, one_mul]

/-- A rounded quotient is the fraction, rounded. -/
theorem roundHalfEven_div (hden : 0 < den) : roundHalfEven ((num : ℚ) / den) = roundDiv num den := by
  have hsplit : (num : ℤ) = (num / den : Nat) * den + (num % den : Nat) := by
    exact_mod_cast (Nat.div_add_mod' num den).symm
  have hrest := Nat.mod_lt num hden
  apply roundHalfEven_eq_iff.mpr
  apply (nearestEven_div_iff hden).mpr
  rw [Int.even_coe_nat]
  rcases roundDiv_cases num den with ⟨hdown, hhalf⟩ | ⟨hup, hhalf⟩
  · have hdistance : |(num : ℤ) - roundDiv num den * den| = (num % den : Nat) := by
      rw [hdown]
      nth_rewrite 1 [hsplit]
      rw [add_sub_cancel_left, Nat.abs_cast]
    rw [hdistance]
    exact ⟨by exact_mod_cast hhalf, fun htie => even_roundDiv (by exact_mod_cast htie)⟩
  · have hdistance : |(num : ℤ) - roundDiv num den * den| = (den - num % den : Nat) := by
      rw [hup, abs_sub_comm, Nat.cast_sub hrest.le]
      nth_rewrite 1 [hsplit]
      rw [Nat.cast_succ, add_mul, one_mul, add_sub_add_left_eq_sub]
      apply abs_of_nonneg
      exact sub_nonneg.mpr (by exact_mod_cast hrest.le)
    rw [hdistance]
    exact ⟨by omega, fun htie => even_roundDiv (by omega)⟩

theorem tenTo_cast (k : Nat) : ((tenTo k : Nat) : ℚ) = 10 ^ k := by
  rw [show tenTo k = 10 ^ k from rfl, Nat.cast_pow, Nat.cast_ofNat]

/-- A fraction in units of a power of ten, rounded. -/
theorem roundAt_eq (hden : 0 < den) (place : Int) :
    (roundAt num den place : ℤ) = roundHalfEven ((num : ℚ) / den / 10 ^ place) := by
  cases place with
  | ofNat places =>
      rw [roundAt, ← roundHalfEven_div (Nat.mul_pos hden (tenTo_pos places)), Nat.cast_mul, tenTo_cast, div_div]
      rfl
  | negSucc places =>
      rw [roundAt, ← roundHalfEven_div hden, Nat.cast_mul, tenTo_cast, zpow_negSucc, div_inv_eq_mul,
        div_mul_eq_mul_div]

/-! ## Decimal exponents -/

/-- A number has as many digits as powers of ten below it. -/
theorem digitCount_bounds {n : Nat} (h : 0 < n) : ∃ k, digitCount n = k + 1 ∧ tenTo k ≤ n ∧ n < tenTo (k + 1) := by
  obtain ⟨k, hk⟩ : ∃ k, digitCount n = k + 1 := Nat.exists_eq_succ_of_ne_zero (Nat.ne_of_gt Nat.length_toDigits_pos)
  have hbound (l : Nat) (hl : 0 < l) : digitCount n ≤ l ↔ n < tenTo l := Nat.length_toDigits_le_iff (by decide) hl
  refine ⟨k, hk, ?_, (hbound (k + 1) (by omega)).mp (by omega)⟩
  by_cases hzero : k = 0
  · rw [hzero]
    exact h
  · have hnot := mt (hbound k (by omega)).mpr (by omega)
    omega

/-- A number between two neighbouring powers of ten has the lower one's exponent. -/
theorem log_eq_of_bounds {q : ℚ} {k : ℤ} (hlow : 10 ^ k ≤ q) (hhigh : q < 10 ^ (k + 1)) : Int.log 10 q = k := by
  have hpos : 0 < q := lt_of_lt_of_le (by positivity) hlow
  apply le_antisymm
  · have hlt := (Int.lt_zpow_iff_log_lt (by decide : 1 < 10) hpos).mp (by exact_mod_cast hhigh)
    omega
  · exact (Int.zpow_le_iff_le_log (by decide : 1 < 10) hpos).mp (by exact_mod_cast hlow)

/-- **The leading exponent is that of the first digit.** -/
theorem leadingExponent_eq (hnum : 0 < num) (hden : 0 < den) :
    leadingExponent num den = Int.log 10 ((num : ℚ) / den) := by
  have hden' : (0 : ℚ) < den := Nat.cast_pos.mpr hden
  have htenTo (k : Nat) : (0 : ℚ) < tenTo k := Nat.cast_pos.mpr (tenTo_pos k)
  symm
  unfold leadingExponent
  by_cases hle : den ≤ num
  · obtain ⟨k, hk, hlow, hhigh⟩ := digitCount_bounds (Nat.div_pos hle hden)
    have hlow' : tenTo k * den ≤ num := (Nat.le_div_iff_mul_le hden).mp hlow
    have hhigh' : num < tenTo (k + 1) * den := (Nat.div_lt_iff_lt_mul hden).mp hhigh
    rw [if_pos hle, hk, Nat.cast_succ, add_sub_cancel_right]
    apply log_eq_of_bounds
    · rw [zpow_natCast, ← tenTo_cast, le_div_iff₀ hden']
      exact_mod_cast hlow'
    · rw [← Nat.cast_succ, zpow_natCast, ← tenTo_cast, div_lt_iff₀ hden']
      exact_mod_cast hhigh'
  · have hquotient : 0 < (den - 1) / num := Nat.div_pos (by omega) hnum
    obtain ⟨k, hk, hlow, hhigh⟩ := digitCount_bounds hquotient
    have hlow' : tenTo k * num ≤ den - 1 := (Nat.le_div_iff_mul_le hnum).mp hlow
    have hhigh' : den - 1 < tenTo (k + 1) * num := (Nat.div_lt_iff_lt_mul hnum).mp hhigh
    rw [if_neg hle, hk]
    apply log_eq_of_bounds
    · rw [zpow_neg, zpow_natCast, ← tenTo_cast, ← one_div, div_le_div_iff₀ (htenTo _) hden', one_mul, mul_comm]
      exact_mod_cast (by omega : den ≤ tenTo (k + 1) * num)
    · have hexponent : -((k + 1 : Nat) : ℤ) + 1 = -(k : ℤ) := by omega
      rw [hexponent, zpow_neg, zpow_natCast, ← tenTo_cast, ← one_div, div_lt_div_iff₀ hden' (htenTo _), one_mul,
        mul_comm]
      exact_mod_cast (by omega : tenTo k * num < den)

/-! ## Both routes -/

theorem lastPlace_eq (exponent : Int) : lastPlace exponent = exponent - 5 := by
  show exponent + 1 - 6 = exponent - 5
  omega

theorem ten_zpow_add (k l : ℤ) : (10 : ℚ) ^ (k + l) = 10 ^ k * 10 ^ l := zpow_add₀ (by norm_num) k l

/-- The first of six digits. -/
theorem first_place (exponent : ℤ) : (10 : ℚ) ^ 5 * 10 ^ (exponent - 5) = 10 ^ exponent := by
  rw [← zpow_natCast, ← ten_zpow_add]
  congr 1
  omega

/-- The place before the first of six digits. -/
theorem next_place (exponent : ℤ) : (10 : ℚ) ^ 6 * 10 ^ (exponent - 5) = 10 ^ (exponent + 1) := by
  rw [← zpow_natCast, ← ten_zpow_add]
  congr 1
  omega

/-- In units of its sixth digit a number has six digits before the point. -/
theorem scaled_bounds {q : ℚ} (hq : 0 < q) :
    (10 ^ 5 : ℤ) ≤ q / 10 ^ (Int.log 10 q - 5) ∧ q / 10 ^ (Int.log 10 q - 5) < (10 ^ 6 : ℤ) := by
  have hunit : (0 : ℚ) < 10 ^ (Int.log 10 q - 5) := by positivity
  have hlow : (10 : ℚ) ^ Int.log 10 q ≤ q := by exact_mod_cast Int.zpow_log_le_self (by decide : 1 < 10) hq
  have hhigh : q < (10 : ℚ) ^ (Int.log 10 q + 1) := by
    exact_mod_cast Int.lt_zpow_succ_log_self (by decide : 1 < 10) q
  rw [le_div_iff₀ hunit, div_lt_iff₀ hunit]
  rw [Int.cast_pow, Int.cast_pow, Int.cast_ofNat, first_place, next_place]
  exact ⟨hlow, hhigh⟩

/-- Rounding does not leave a range between whole numbers. -/
theorem NearestEven.bounds {q : ℚ} {n a b : ℤ} (h : NearestEven q n) (ha : a ≤ q) (hb : q < b) : a ≤ n ∧ n ≤ b := by
  have hle := abs_le.mp h.1
  constructor
  · by_contra hlt
    have hstep : (n : ℚ) + 1 ≤ a := by exact_mod_cast not_le.mp hlt
    linarith
  · by_contra hlt
    have hstep : (b : ℚ) + 1 ≤ n := by exact_mod_cast not_le.mp hlt
    linarith

/-- A number that rounds to a power of ten rounds to it at the next place as well. -/
theorem NearestEven.carry {q : ℚ} (h : NearestEven q (10 ^ 6)) : NearestEven (q / 10) (10 ^ 5) := by
  have hle := abs_le.mp h.1
  push_cast at hle
  have hlt : |q / 10 - (10 ^ 5 : ℤ)| < 1 / 2 := by
    push_cast
    rw [abs_lt]
    constructor <;> linarith
  exact ⟨hlt.le, fun htie => absurd htie hlt.ne⟩

/-- The exponent of six digits. -/
theorem log_digits {digits : Nat} (exponent : ℤ) (hlow : 10 ^ 5 ≤ digits) (hhigh : digits < 10 ^ 6) :
    Int.log 10 ((digits : ℚ) * 10 ^ (exponent - 5)) = exponent := by
  have hunit : (0 : ℚ) < 10 ^ (exponent - 5) := by positivity
  apply log_eq_of_bounds
  · rw [← first_place]
    exact mul_le_mul_of_nonneg_right (by exact_mod_cast hlow) hunit.le
  · rw [← next_place]
    exact mul_lt_mul_of_pos_right (by exact_mod_cast hhigh) hunit

/-- **Both routes give the same number.** The first rounding gives six digits and their exponent; rounding the number
itself at the place that this exponent gives to the last digit gives the same digits. -/
theorem scientific_spec (hnum : 0 < num) (hden : 0 < den) :
    ∃ digits exponent, scientific num den = (digits, exponent) ∧ 10 ^ 5 ≤ digits ∧ digits < 10 ^ 6 ∧
      sixDigits (num / den) = digits * 10 ^ (exponent - 5) ∧ roundAt num den (lastPlace exponent) = digits := by
  have hpos : (0 : ℚ) < num / den := div_pos (Nat.cast_pos.mpr hnum) (Nat.cast_pos.mpr hden)
  obtain ⟨digits, hdigits⟩ : ∃ digits, roundAt num den (lastPlace (leadingExponent num den)) = digits := ⟨_, rfl⟩
  have hround : NearestEven ((num : ℚ) / den / 10 ^ (Int.log 10 ((num : ℚ) / den) - 5)) digits := by
    apply roundHalfEven_eq_iff.mp
    rw [← hdigits, roundAt_eq hden, lastPlace_eq, leadingExponent_eq hnum hden]
  have hsix : sixDigits (num / den) = digits * 10 ^ (Int.log 10 ((num : ℚ) / den) - 5) := by
    rw [sixDigits, abs_of_pos hpos, roundHalfEven_eq_iff.mpr hround, Int.cast_natCast]
  obtain ⟨hlow, hhigh⟩ := hround.bounds (scaled_bounds hpos).1 (scaled_bounds hpos).2
  have hmillion : tenTo significantDigits = 10 ^ 6 := rfl
  unfold scientific
  dsimp only
  rw [hdigits, leadingExponent_eq hnum hden]
  by_cases hcarry : digits = tenTo significantDigits
  · -- the carry moves the point, and at the next place the number is near to `10^5`
    rw [if_pos hcarry]
    rw [hcarry, hmillion] at hround hsix
    refine ⟨_, _, rfl, by decide, by decide, ?_, ?_⟩
    · rw [hsix, tenTo_cast, Nat.cast_pow, Nat.cast_ofNat, next_place]
      exact (first_place _).symm
    · apply Nat.cast_injective (R := ℤ)
      rw [roundAt_eq hden, lastPlace_eq, add_sub_right_comm, ten_zpow_add, zpow_one, ← div_div]
      exact roundHalfEven_eq_iff.mpr hround.carry
  · rw [if_neg hcarry]
    rw [hmillion] at hcarry
    refine ⟨digits, _, rfl, by exact_mod_cast hlow, ?_, hsix, by rw [← hdigits, leadingExponent_eq hnum hden]⟩
    have hle : digits ≤ 10 ^ 6 := by exact_mod_cast hhigh
    exact Nat.lt_of_le_of_ne hle hcarry

end Fractions

end Number
end Abacus
