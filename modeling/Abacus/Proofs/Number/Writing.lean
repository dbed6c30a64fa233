import Abacus.Proofs.Number.Numeral

/-!
# `Number.Writing` — the text of a number denotes its six digits

The text of a number is the numeral of that number rounded to six significant digits. `Numeral.Writes` lists what is
asked of such a numeral: what it denotes, when it has an exponent, and that it has no digit too many.

Rounding and layout treat a number and its negative alike, so all but the sign is said about magnitudes.

## Contents
- `Numeral.Writes` — general notation with six digits;
- `pointed_writes`, `scientific_writes` — the two layouts;
- `magnitudeText_writes`, `scientific_eq_roundAt` — magnitudes, and the two ways to their digits;
- `text_writes_sixDigits` — the text of a number;
- `alphabet`, `mem_alphabet_of_text` — the characters of such a text.
-/

namespace Abacus
namespace Number

/-- The numeral `n` writes `r` in general notation with six significant digits. -/
structure Numeral.Writes (n : Numeral) (r : ℚ) : Prop where
  /-- It denotes `r` and nothing near it. -/
  value : n.value = r
  negative : n.negative = true ↔ r < 0
  /-- There is no exponent for numbers from `10^-4` up to `10^6`. -/
  positional : n.exponent = none ↔ -4 ≤ Int.log 10 |r| ∧ Int.log 10 |r| < 6
  /-- An exponent is that of the first digit, and has at least two digits. -/
  exponent : ∀ minus digits, n.exponent = some (minus, digits) → n.power = Int.log 10 |r| ∧ 2 ≤ digits.length
  significant : n.digits.significant ≤ 6
  /-- Behind the point stands a digit, and the last one is not zero. -/
  fraction : ∀ digits, n.fraction = some digits → ∃ d, digits.getLast? = some d ∧ d ≠ 0
  /-- No zero is in front of another digit before the point. -/
  plain : n.whole.Plain
  /-- Without an exponent no zero before the point is left out. -/
  integer : n.exponent = none → (n.whole.value : ℤ) = ⌊|r|⌋

/-! ## The sign -/

theorem abs_signed (negative : Bool) (r : ℚ) : |signed negative r| = |r| := by
  cases negative with
  | false => rfl
  | true => exact abs_neg r

theorem signed_lt_zero_iff {r : ℚ} (h : 0 < r) (negative : Bool) : signed negative r < 0 ↔ negative = true := by
  cases negative with
  | false => simpa [signed] using h.le
  | true => simpa [signed] using h

theorem sixDigits_signed (negative : Bool) (q : ℚ) :
    sixDigits (signed negative q) = signed negative (sixDigits q) := by
  cases negative with
  | false => rfl
  | true => exact sixDigits_neg q

theorem roundHalfEven_signed (negative : Bool) (q : ℚ) :
    (roundHalfEven (signed negative q) : ℚ) = signed negative (roundHalfEven q) := by
  cases negative with
  | false => rfl
  | true =>
      show (roundHalfEven (-q) : ℚ) = -(roundHalfEven q : ℚ)
      rw [roundHalfEven_neg, Int.cast_neg]

theorem signed_mul (negative : Bool) (q c : ℚ) : signed negative q * c = signed negative (q * c) := by
  cases negative with
  | false => rfl
  | true => exact neg_mul q c

/-- A numeral without a sign gets the sign of what it is to write. -/
theorem Numeral.Writes.signed {n : Numeral} {r : ℚ} (h : n.Writes r) (hr : 0 < r) (negative : Bool) :
    { n with negative := negative }.Writes (signed negative r) where
  value := by
    have hnegative : n.negative = false := by
      apply Bool.eq_false_iff.mpr
      exact mt h.negative.mp (not_lt.mpr hr.le)
    have hmagnitude : n.magnitude = r := by
      have hvalue := h.value
      rwa [Numeral.value, hnegative] at hvalue
    show Number.signed negative n.magnitude = Number.signed negative r
    rw [hmagnitude]
  negative := (signed_lt_zero_iff hr negative).symm
  positional := by
    rw [abs_signed]
    exact h.positional
  exponent := by
    rw [abs_signed]
    exact h.exponent
  significant := h.significant
  fraction := h.fraction
  plain := h.plain
  integer := by
    rw [abs_signed]
    exact h.integer

/-! ## The layouts -/

section Layout

variable {digits : Nat}

theorem digits_pos (exponent : ℤ) (hlow : 10 ^ 5 ≤ digits) : (0 : ℚ) < digits * 10 ^ (exponent - 5) := by
  have hdigits : (0 : ℚ) < digits := Nat.cast_pos.mpr (by omega)
  positivity

/-- Six digits without an exponent. -/
theorem pointed_writes {exponent : ℤ} (hlow : 10 ^ 5 ≤ digits) (hhigh : digits < 10 ^ 6)
    (hrange : -4 ≤ exponent ∧ exponent < 6) :
    ∃ n : Numeral, (pointed digits (-lastPlace exponent).toNat).toList = n.spellMagnitude ∧
      n.Writes (digits * 10 ^ (exponent - 5)) := by
  obtain ⟨places, hplaces⟩ : ∃ places : Nat, exponent - 5 = -(places : ℤ) := ⟨(5 - exponent).toNat, by omega⟩
  have hpos := digits_pos exponent hlow
  have hlog := log_digits exponent hlow hhigh
  have hr : (digits : ℚ) * 10 ^ (exponent - 5) = digits / 10 ^ places := by
    rw [hplaces, zpow_neg, zpow_natCast, div_eq_mul_inv]
  have hcount : (-lastPlace exponent).toNat = places := by
    rw [lastPlace_eq, hplaces]
    omega
  obtain ⟨whole, fraction, hspell, hplain, hwhole, hfraction, hle, hvalue⟩ := pointed_spec digits places
  refine ⟨⟨false, whole, fraction, none⟩, ?_, ?_, ?_, ?_, nofun, ?_, hfraction, hplain, fun _ => ?_⟩
  · rw [hcount, hspell, Numeral.spellMagnitude, Numeral.spellExponent, List.append_nil]
  · show (Digits.value (whole ++ fraction.getD []) : ℚ) / 10 ^ (fraction.getD []).length * 10 ^ (0 : ℤ) = _
    rw [hvalue, zpow_zero, mul_one, hr]
  · simpa using hpos.le
  · rw [abs_of_pos hpos, hlog]
    exact iff_of_true rfl hrange
  · exact Digits.significant_le (Nat.lt_of_le_of_lt hle hhigh)
  · have hfloor := Rat.floor_natCast_div_natCast digits (10 ^ places)
    rw [Nat.cast_pow, Nat.cast_ofNat] at hfloor
    rw [abs_of_pos hpos, hr, hfloor, hwhole]
    push_cast
    rfl

/-- Six digits with an exponent. -/
theorem scientific_writes {exponent : ℤ} (hlow : 10 ^ 5 ≤ digits) (hhigh : digits < 10 ^ 6)
    (hrange : ¬(-4 ≤ exponent ∧ exponent < 6)) :
    ∃ n : Numeral, (pointed digits 5 ++ "e" ++ exponentText exponent).toList = n.spellMagnitude ∧
      n.Writes (digits * 10 ^ (exponent - 5)) := by
  have hpos := digits_pos exponent hlow
  have hlog := log_digits exponent hlow hhigh
  obtain ⟨whole, fraction, hspell, hplain, hwhole, hfraction, hle, hvalue⟩ := pointed_spec digits 5
  obtain ⟨behind, hspell', hbehind, hlength⟩ := exponentText_spec exponent
  let n : Numeral := ⟨false, whole, fraction, some (decide (exponent < 0), behind)⟩
  have hpower : n.power = exponent := by
    show (if decide (exponent < 0) = true then -(behind.value : ℤ) else behind.value) = exponent
    simp only [hbehind, decide_eq_true_eq]
    split <;> omega
  refine ⟨n, ?_, ?_, ?_, ?_, ?_, ?_, hfraction, hplain, nofun⟩
  · simp only [String.toList_append, hspell, hspell', Numeral.spellMagnitude, Numeral.spellExponent, n,
      decide_eq_true_eq, List.append_assoc]
    rfl
  · show (Digits.value (whole ++ fraction.getD []) : ℚ) / 10 ^ (fraction.getD []).length * 10 ^ n.power = _
    rw [hvalue, hpower, ← first_place exponent, ← mul_assoc, div_mul_cancel₀ _ (by norm_num)]
  · simpa using hpos.le
  · rw [abs_of_pos hpos, hlog]
    exact iff_of_false nofun hrange
  · rintro minus digits ⟨⟩
    rw [abs_of_pos hpos, hlog]
    exact ⟨hpower, hlength⟩
  · exact Digits.significant_le (Nat.lt_of_le_of_lt hle hhigh)

end Layout

/-! ## Magnitudes -/

theorem isPositional_iff (exponent : ℤ) : isPositional exponent = true ↔ -4 ≤ exponent ∧ exponent < 6 := by
  unfold isPositional
  exact decide_eq_true_iff

/-- **The text of a magnitude** writes its six digits. -/
theorem magnitudeText_writes {units : Nat} (h : 0 < units) :
    0 < sixDigits (units / one) ∧ ∃ n : Numeral, (magnitudeText units).toList = n.spellMagnitude ∧
      n.Writes (sixDigits (units / one)) := by
  obtain ⟨digits, exponent, hscientific, hlow, hhigh, hsix, hround⟩ := scientific_spec h one_units_pos
  rw [hsix]
  refine ⟨digits_pos exponent hlow, ?_⟩
  unfold magnitudeText
  rw [if_neg (Nat.ne_of_gt h), hscientific]
  dsimp only
  by_cases hrange : -4 ≤ exponent ∧ exponent < 6
  · rw [if_pos ((isPositional_iff exponent).mpr hrange), hround]
    exact pointed_writes hlow hhigh hrange
  · rw [if_neg (mt (isPositional_iff exponent).mp hrange)]
    exact scientific_writes hlow hhigh hrange

/-- The exponent behind the first rounding is that of the rounded number, and gives the same digits once more. -/
theorem scientific_eq_roundAt {num den : Nat} (hnum : 0 < num) (hden : 0 < den) :
    let exponent := Int.log 10 |sixDigits (num / den)|
    scientific num den = (roundAt num den (lastPlace exponent), exponent) ∧
      (roundHalfEven ((num : ℚ) / den * 10 ^ (5 - exponent)) : ℚ) / 10 ^ (5 - exponent) =
        sixDigits (num / den) := by
  obtain ⟨digits, exponent, hscientific, hlow, hhigh, hsix, hround⟩ := scientific_spec hnum hden
  have hlog : Int.log 10 |sixDigits ((num : ℚ) / den)| = exponent := by
    rw [hsix, abs_of_pos (digits_pos exponent hlow), log_digits exponent hlow hhigh]
  have hpower : (10 : ℚ) ^ (5 - exponent) = (10 ^ (exponent - 5))⁻¹ := by
    rw [← zpow_neg, neg_sub]
  dsimp only
  rw [hlog, hround, hpower, ← div_eq_mul_inv, div_inv_eq_mul, ← lastPlace_eq, ← roundAt_eq hden, hround, hsix,
    lastPlace_eq, Int.cast_natCast]
  exact ⟨hscientific, rfl⟩

/-! ## Numbers -/

/-- A number that has a value is a count of units. -/
theorem decode_of_exactValue? {x : Float} {q : ℚ} (h : exactValue? x = some q) :
    ∃ negative units, decode x = .finite negative units ∧ q = signed negative (units / one) := by
  rw [exactValue?_eq] at h
  cases hdecode : decode x with
  | nan =>
      rw [hdecode] at h
      cases h
  | infinite negative =>
      rw [hdecode] at h
      cases h
  | finite negative units =>
      rw [hdecode] at h
      exact ⟨negative, units, rfl, (Option.some.inj h).symm⟩

/-- The text of a number is that of its magnitude, with its sign. -/
theorem text_eq_spell {x : Float} {negative : Bool} {units : Nat} {n : Numeral}
    (hdecode : decode x = .finite negative units) (hspell : (magnitudeText units).toList = n.spellMagnitude) :
    text x = { n with negative := negative }.spell := by
  apply String.toList_inj.mp
  rw [text, hdecode, Numeral.spell, String.toList_ofList]
  show (if negative = true then "-" ++ magnitudeText units else magnitudeText units).toList =
    if negative = true then '-' :: n.spellMagnitude else n.spellMagnitude
  cases negative with
  | false => exact hspell
  | true =>
      rw [if_pos rfl, if_pos rfl, String.toList_append, hspell]
      rfl

/-- **The text of a number denotes it, rounded to six significant digits**, a half to the even digit. For a number that
is finite and not zero let `r` be the rounded number and `X` its decimal exponent. The text has one reading, which
denotes `r`, without an exponent if and only if `-4 ≤ X < 6` (`Numeral.Writes`), and it begins with a minus if and only
if the number is negative. Rounding the number itself to `5 - X` decimals also gives `r`, and the two ways in which the
digits are found agree. -/
theorem text_writes_sixDigits {x : Float} {q : ℚ} (hx : exactValue? x = some q) (hq : q ≠ 0) :
    let r := sixDigits q
    let X := Int.log 10 |r|
    (∃ n : Numeral, (∀ m : Numeral, m.spell = text x ↔ m = n) ∧ n.Writes r) ∧
      ((text x).toList.head? = some '-' ↔ q < 0) ∧
      (roundHalfEven (q * 10 ^ (5 - X)) : ℚ) / 10 ^ (5 - X) = r ∧
      ∀ negative units, decode x = .finite negative units →
        scientific units one = (roundAt units one (lastPlace X), X) := by
  obtain ⟨negative, units, hdecode, hvalue⟩ := decode_of_exactValue? hx
  have hunits : 0 < units := by
    apply Nat.pos_of_ne_zero
    rintro rfl
    apply hq
    rw [hvalue, Nat.cast_zero, zero_div, signed_zero]
  have hpositive : (0 : ℚ) < units / one := div_pos (Nat.cast_pos.mpr hunits) (Nat.cast_pos.mpr one_units_pos)
  obtain ⟨hpos, n, hspell, hwrites⟩ := magnitudeText_writes hunits
  obtain ⟨hroutes, hsecond⟩ := scientific_eq_roundAt hunits one_units_pos
  have htext := text_eq_spell hdecode hspell
  have hsigned := hwrites.signed hpos negative
  dsimp only
  rw [hvalue, sixDigits_signed, abs_signed]
  refine ⟨⟨_, fun m => ?_, hsigned⟩, ?_, ?_, fun negative' units' hdecode' => ?_⟩
  · rw [htext, Numeral.spell_injective.eq_iff]
  · rw [htext, Numeral.head?_spell, signed_lt_zero_iff hpositive]
  · rw [signed_mul, roundHalfEven_signed, div_eq_mul_inv, signed_mul, ← div_eq_mul_inv, hsecond]
  · rw [hdecode, Decoded.finite.injEq] at hdecode'
    rw [← hdecode'.2]
    exact hroutes

/-- The first rounding of `-999999.5` carries, and so the text has an exponent. -/
theorem text_writes_sixDigits_carry :
    exactValue? (-999999.5) = some (-999999.5) ∧ text (-999999.5) = "-1e+06" ∧
      ∃ n : Numeral, n.spell = "-1e+06" ∧ n.Writes (sixDigits (-999999.5)) := by
  have hexact : exactValue? (-999999.5) = some (-999999.5) := by decide +kernel
  have htext : text (-999999.5) = "-1e+06" := by decide +kernel
  obtain ⟨⟨n, hspell, hwrites⟩, -⟩ := text_writes_sixDigits hexact (by norm_num)
  exact ⟨hexact, htext, n, by rw [(hspell n).mpr rfl, htext], hwrites⟩

/-! ## Characters -/

/-- The characters that numbers are written with. -/
def alphabet : List Char := "+-.0123456789aefin".toList

theorem Digits.mem_alphabet (digits : Digits) : ∀ c ∈ digits.spell, c ∈ alphabet := by
  have hdigit : ∀ d : Fin 10, Nat.digitChar d ∈ alphabet := by decide
  induction digits with
  | nil => nofun
  | cons d rest ih => exact List.forall_mem_cons.mpr ⟨hdigit d, ih⟩

theorem Numeral.mem_alphabet (n : Numeral) : ∀ c ∈ n.spell.toList, c ∈ alphabet := by
  have hfraction : ∀ c ∈ spellFraction n.fraction, c ∈ alphabet := by
    cases n.fraction with
    | none => nofun
    | some digits => exact List.forall_mem_cons.mpr ⟨by decide, digits.mem_alphabet⟩
  have hexponent : ∀ c ∈ spellExponent n.exponent, c ∈ alphabet := by
    rcases n.exponent with _ | ⟨minus, digits⟩
    · nofun
    · have hsign : ∀ minus : Bool, (if minus then '-' else '+') ∈ alphabet := by decide
      exact List.forall_mem_cons.mpr ⟨by decide, List.forall_mem_cons.mpr ⟨hsign minus, digits.mem_alphabet⟩⟩
  have hmagnitude : ∀ c ∈ n.spellMagnitude, c ∈ alphabet := by
    unfold spellMagnitude
    simp only [List.forall_mem_append]
    exact ⟨⟨n.whole.mem_alphabet, hfraction⟩, hexponent⟩
  rw [spell, String.toList_ofList]
  split
  · exact List.forall_mem_cons.mpr ⟨by decide, hmagnitude⟩
  · exact hmagnitude

theorem Numeral.spell_ne_nil {n : Numeral} (h : n.whole ≠ []) : n.spell.toList ≠ [] := by
  obtain ⟨d, rest, hwhole⟩ := List.exists_cons_of_ne_nil h
  rw [spell, String.toList_ofList, spellMagnitude, hwhole]
  split <;> exact List.cons_ne_nil _ _

/-- The text of a finite number is a numeral. -/
theorem text_cases (x : Float) :
    text x ∈ ["nan", "inf", "-inf"] ∨ ∃ n : Numeral, text x = n.spell ∧ n.whole ≠ [] := by
  cases hdecode : decode x with
  | nan => exact .inl (by simp [text, hdecode])
  | infinite negative => exact .inl (by cases negative <;> simp [text, hdecode])
  | finite negative units =>
      rcases Nat.eq_zero_or_pos units with rfl | hunits
      · let zero : Numeral := ⟨false, [0], none, none⟩
        have hzero : (magnitudeText 0).toList = zero.spellMagnitude := rfl
        exact .inr ⟨_, text_eq_spell hdecode hzero, List.cons_ne_nil _ _⟩
      · obtain ⟨-, n, hspell, hwrites⟩ := magnitudeText_writes hunits
        exact .inr ⟨_, text_eq_spell hdecode hspell, hwrites.plain.1⟩

theorem mem_alphabet_of_text (x : Float) : ∀ c ∈ (text x).toList, c ∈ alphabet := by
  rcases text_cases x with hword | ⟨n, hspell, -⟩
  · have hall : ∀ word ∈ ["nan", "inf", "-inf"], word.toList ⊆ alphabet := by decide
    exact fun c hc => hall _ hword hc
  · rw [hspell]
    exact n.mem_alphabet

theorem text_ne_nil (x : Float) : (text x).toList ≠ [] := by
  rcases text_cases x with hword | ⟨n, hspell, hwhole⟩
  · have hall : ∀ word ∈ ["nan", "inf", "-inf"], word.toList ≠ [] := by decide
    exact hall _ hword
  · rw [hspell]
    exact n.spell_ne_nil hwhole

end Number
end Abacus
