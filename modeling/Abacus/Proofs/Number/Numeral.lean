import Abacus.Proofs.Number.Rounding

/-!
# `Number.Numeral` — what a written number denotes

A numeral is a sign, digits before the point, digits behind it if there is a point, and a sign with digits behind the
letter `e` if there is one. It has a spelling and a value, and neither refers to how a number is laid out; a text is the
spelling of at most one numeral, so a text that spells one denotes its value and no other. The lemmas then say for each
part of the layout which numeral it spells.

## Contents
- `Digits`, `Numeral` — spelling and value;
- `Numeral.spell_injective` — a text has one reading;
- `decimal_spec`, `lastDigits_spec` — digits of whole numbers;
- `pointed_spec` — a scaled whole number with its point;
- `exponentText_spec` — an exponent with its sign.
-/

namespace Abacus
namespace Number

/-! ## Digits -/

/-- Decimal digits, the most significant one first. -/
abbrev Digits := List (Fin 10)

namespace Digits

/-- The number that digits stand for. -/
def value (digits : Digits) : Nat := digits.foldl (fun n d => 10 * n + d.val) 0

/-- How digits are written. -/
def spell (digits : Digits) : List Char := digits.map fun d => Nat.digitChar d

/-- How many digits there are from the first one on that is not zero. -/
def significant (digits : Digits) : Nat := (digits.dropWhile (· = 0)).length

/-- There is a digit, and the first one is not zero unless it is the only one. -/
def Plain (digits : Digits) : Prop := digits ≠ [] ∧ (digits.head? = some 0 → digits = [0])

theorem foldl_eq (digits : Digits) (n : Nat) :
    digits.foldl (fun n d => 10 * n + d.val) n = n * 10 ^ digits.length + digits.value := by
  induction digits generalizing n with
  | nil => simp [value]
  | cons d rest ih =>
      rw [value, List.foldl_cons, List.foldl_cons, ih, ih (10 * 0 + d), List.length_cons]
      ring

theorem value_append (front rest : Digits) : value (front ++ rest) = front.value * 10 ^ rest.length + rest.value := by
  rw [value, List.foldl_append, foldl_eq]
  rfl

theorem value_concat (front : Digits) (d : Fin 10) : value (front ++ [d]) = 10 * front.value + d := by
  rw [value, List.foldl_append]
  rfl

theorem value_cons (d : Fin 10) (rest : Digits) : value (d :: rest) = d * 10 ^ rest.length + rest.value := by
  rw [value, List.foldl_cons, foldl_eq]
  simp

theorem value_lt (digits : Digits) : digits.value < 10 ^ digits.length := by
  induction digits with
  | nil => decide
  | cons d rest ih =>
      have hdigit : (d : Nat) * 10 ^ rest.length ≤ 9 * 10 ^ rest.length :=
        Nat.mul_le_mul_right _ (Nat.le_of_lt_succ d.isLt)
      rw [value_cons, List.length_cons, Nat.pow_succ]
      omega

/-- A number below `10^k` has at most `k` significant digits. -/
theorem significant_le {digits : Digits} {k : Nat} (h : digits.value < 10 ^ k) : digits.significant ≤ k := by
  induction digits with
  | nil => exact Nat.zero_le k
  | cons d rest ih =>
      rw [value_cons] at h
      by_cases hzero : d = 0
      · subst hzero
        have hsame : significant (0 :: rest) = significant rest := rfl
        rw [hsame]
        apply ih
        simpa using h
      · have hdigit : 1 ≤ (d : Nat) := Nat.pos_of_ne_zero (Fin.val_ne_zero_iff.mpr hzero)
        have hlow : 10 ^ rest.length ≤ (d : Nat) * 10 ^ rest.length := Nat.le_mul_of_pos_left _ hdigit
        have hlt : 10 ^ rest.length < 10 ^ k := by omega
        have hlength := (Nat.pow_lt_pow_iff_right (by decide)).mp hlt
        have hall : significant (d :: rest) = rest.length + 1 := by simp [significant, hzero]
        omega

/-- A text that begins with no digit. -/
def Ends (rest : List Char) : Prop := ∀ d : Fin 10, rest.head? ≠ some (Nat.digitChar d)

theorem ends_nil : Ends [] := fun _ => nofun

/-- Digits are read off a text up to where no digit follows. -/
theorem spell_append_inj {a b : Digits} {s t : List Char} (hs : Ends s) (ht : Ends t)
    (h : a.spell ++ s = b.spell ++ t) : a = b ∧ s = t := by
  have hchar : ∀ d e : Fin 10, Nat.digitChar d = Nat.digitChar e → d = e := by decide
  induction a generalizing b with
  | nil =>
      cases b with
      | nil => exact ⟨rfl, h⟩
      | cons e rest => exact absurd (congrArg List.head? h) (hs e)
  | cons d rest ih =>
      cases b with
      | nil => exact absurd (congrArg List.head? h).symm (ht d)
      | cons e rest' =>
          have hcons : Nat.digitChar d :: (spell rest ++ s) = Nat.digitChar e :: (spell rest' ++ t) := h
          injection hcons with hhead htail
          obtain ⟨rfl, hrest⟩ := ih htail
          rw [hchar d e hhead]
          exact ⟨rfl, hrest⟩

end Digits

/-! ## Numerals -/

/-- A number as it is written. -/
@[ext]
structure Numeral where
  negative : Bool
  whole : Digits
  /-- What stands behind the point, if there is one. -/
  fraction : Option Digits
  /-- Whether a minus stands behind the letter `e`, and the digits behind the sign. -/
  exponent : Option (Bool × Digits)

namespace Numeral

/-- The digits of the numeral, without the exponent. -/
def digits (n : Numeral) : Digits := n.whole ++ n.fraction.getD []

/-- The power of ten that the exponent gives. -/
def power (n : Numeral) : ℤ :=
  match n.exponent with
  | none => 0
  | some (minus, digits) => if minus then -digits.value else digits.value

/-- The number that a numeral denotes, without its sign. -/
def magnitude (n : Numeral) : ℚ := n.digits.value / 10 ^ (n.fraction.getD []).length * 10 ^ n.power

/-- The number that a numeral denotes. -/
def value (n : Numeral) : ℚ := signed n.negative n.magnitude

/-- How a fraction is written. -/
def spellFraction : Option Digits → List Char
  | none => []
  | some digits => '.' :: digits.spell

/-- How an exponent is written. -/
def spellExponent : Option (Bool × Digits) → List Char
  | none => []
  | some (minus, digits) => 'e' :: (if minus then '-' else '+') :: digits.spell

/-- How a numeral is written, without its sign. -/
def spellMagnitude (n : Numeral) : List Char :=
  n.whole.spell ++ spellFraction n.fraction ++ spellExponent n.exponent

/-- How a numeral is written. -/
def spell (n : Numeral) : String :=
  .ofList (if n.negative then '-' :: n.spellMagnitude else n.spellMagnitude)

theorem ends_spellExponent (exponent : Option (Bool × Digits)) : Digits.Ends (spellExponent exponent) := by
  have hletter : ∀ d : Fin 10, 'e' ≠ Nat.digitChar d := by decide
  cases exponent with
  | none => exact Digits.ends_nil
  | some exponent => exact fun d h => hletter d (Option.some.inj h)

theorem ends_spellFraction (fraction : Option Digits) (exponent : Option (Bool × Digits)) :
    Digits.Ends (spellFraction fraction ++ spellExponent exponent) := by
  have hpoint : ∀ d : Fin 10, '.' ≠ Nat.digitChar d := by decide
  cases fraction with
  | none => exact ends_spellExponent exponent
  | some fraction => exact fun d h => hpoint d (Option.some.inj h)

/-- Only a sign is a minus in front. -/
theorem head?_spellMagnitude (n : Numeral) : n.spellMagnitude.head? ≠ some '-' := by
  have hdigit : ∀ d : Fin 10, Nat.digitChar d ≠ '-' := by decide
  rcases n with ⟨negative, _ | ⟨d, rest⟩, _ | fraction, _ | exponent⟩
  · exact nofun
  · exact fun h => absurd (Option.some.inj h) (by decide)
  · exact fun h => absurd (Option.some.inj h) (by decide)
  · exact fun h => absurd (Option.some.inj h) (by decide)
  all_goals exact fun h => hdigit d (Option.some.inj h)

/-- The sign is what a numeral begins with. -/
theorem head?_spell (n : Numeral) : n.spell.toList.head? = some '-' ↔ n.negative = true := by
  rw [spell, String.toList_ofList]
  cases n.negative with
  | true => exact iff_of_true rfl rfl
  | false => exact iff_of_false n.head?_spellMagnitude Bool.false_ne_true

theorem spellExponent_injective : Function.Injective spellExponent := by
  have hsign : ∀ a b : Bool, (if a then '-' else '+') = (if b then '-' else '+') → a = b := by decide
  intro a b h
  rcases a with _ | ⟨minus, digits⟩ <;> rcases b with _ | ⟨minus', digits'⟩
  · rfl
  · cases h
  · cases h
  · injection h with _ htail
    injection htail with hminus hspell
    rw [← List.append_nil digits.spell, ← List.append_nil digits'.spell] at hspell
    obtain ⟨rfl, -⟩ := Digits.spell_append_inj Digits.ends_nil Digits.ends_nil hspell
    rw [hsign _ _ hminus]

/-- A fraction is read off a text, and the exponent behind it. -/
theorem spellFraction_append_inj {fraction fraction' : Option Digits} {exponent exponent' : Option (Bool × Digits)}
    (h : spellFraction fraction ++ spellExponent exponent = spellFraction fraction' ++ spellExponent exponent') :
    fraction = fraction' ∧ exponent = exponent' := by
  have hpoint (exponent : Option (Bool × Digits)) : (spellExponent exponent).head? ≠ some '.' := by
    rcases exponent with _ | exponent
    · exact nofun
    · exact fun h => absurd (Option.some.inj h) (by decide)
  rcases fraction with _ | digits <;> rcases fraction' with _ | digits'
  · exact ⟨rfl, spellExponent_injective h⟩
  · exact absurd (congrArg List.head? h) (hpoint exponent)
  · exact absurd (congrArg List.head? h).symm (hpoint exponent')
  · injection h with _ htail
    obtain ⟨rfl, hrest⟩ := Digits.spell_append_inj (ends_spellExponent _) (ends_spellExponent _) htail
    exact ⟨rfl, spellExponent_injective hrest⟩

/-- **A text is the spelling of at most one numeral.** -/
theorem spell_injective : Function.Injective spell := by
  intro n m h
  have hnegative : n.negative = m.negative := by
    rw [Bool.eq_iff_iff, ← head?_spell, ← head?_spell, h]
  have hmagnitude : n.spellMagnitude = m.spellMagnitude := by
    have hchars := congrArg String.toList h
    rw [spell, spell, String.toList_ofList, String.toList_ofList, hnegative] at hchars
    cases hm : m.negative with
    | false => simpa [hm] using hchars
    | true => simpa [hm] using hchars
  rw [spellMagnitude, spellMagnitude, List.append_assoc, List.append_assoc] at hmagnitude
  obtain ⟨hwhole, hrest⟩ :=
    Digits.spell_append_inj (ends_spellFraction _ _) (ends_spellFraction _ _) hmagnitude
  obtain ⟨hfraction, hexponent⟩ := spellFraction_append_inj hrest
  exact Numeral.ext hnegative hwhole hfraction hexponent

end Numeral

/-! ## Layout -/

/-- A whole number in decimal digits. -/
theorem decimal_spec (n : Nat) :
    ∃ digits : Digits, (decimal n).toList = digits.spell ∧ digits.value = n ∧ digits.Plain := by
  show ∃ digits : Digits, (String.ofList (Nat.toDigits 10 n)).toList = _ ∧ _
  rw [String.toList_ofList]
  induction n using Nat.strongRecOn with
  | ind n ih =>
      by_cases hlt : n < 10
      · refine ⟨[⟨n, hlt⟩], Nat.toDigits_of_lt_base hlt, by simp [Digits.value], by simp, fun hhead => ?_⟩
        rw [Option.some.inj hhead]
      · obtain ⟨front, hspell, hvalue, hne, hplain⟩ := ih (n / 10) (by omega)
        refine ⟨front ++ [⟨n % 10, Nat.mod_lt n (by decide)⟩], ?_, ?_, by simp, fun hhead => ?_⟩
        · rw [Nat.toDigits_of_base_le (by decide) (by omega), hspell]
          simp [Digits.spell]
        · rw [Digits.value_concat, hvalue]
          exact Nat.div_add_mod n 10
        · -- the front begins with the same digit, and is not zero
          rw [List.head?_append_of_ne_nil _ hne] at hhead
          rw [hplain hhead] at hvalue
          have hzero : Digits.value [0] = 0 := rfl
          omega

/-- The last digits of a whole number. -/
theorem lastDigits_spec (count n : Nat) :
    ∃ digits : Digits, lastDigits count n = digits.spell ∧ digits.length = count ∧ digits.value = n % 10 ^ count ∧
      ∀ d, digits.getLast? = some d → d.val = n % 10 := by
  induction count generalizing n with
  | zero => exact ⟨[], rfl, rfl, by rw [Nat.pow_zero, Nat.mod_one]; rfl, nofun⟩
  | succ count ih =>
      obtain ⟨front, hspell, hlength, hvalue, -⟩ := ih (n / 10)
      refine ⟨front ++ [⟨n % 10, Nat.mod_lt n (by decide)⟩], ?_, by simp [hlength], ?_, fun d hd => ?_⟩
      · rw [lastDigits, hspell]
        simp [Digits.spell]
      · rw [Digits.value_concat, hvalue, Nat.pow_succ', Nat.mod_mul, Nat.add_comm]
      · rw [List.getLast?_concat] at hd
        cases hd
        rfl

/-- Zeros at the end of a fraction are taken off, and nothing else. -/
theorem stripZeros_spec (n places : Nat) :
    ∃ m kept zeros, stripZeros n places = (m, kept) ∧ places = kept + zeros ∧ n = m * 10 ^ zeros ∧
      (kept ≠ 0 → m % 10 ≠ 0) := by
  induction places generalizing n with
  | zero => exact ⟨n, 0, 0, rfl, rfl, (Nat.mul_one n).symm, fun h => absurd rfl h⟩
  | succ places ih =>
      rw [stripZeros]
      by_cases hzero : n % 10 = 0
      · obtain ⟨m, kept, zeros, hstrip, hplaces, hn, hlast⟩ := ih (n / 10)
        refine ⟨m, kept, zeros + 1, by rw [if_pos hzero, hstrip], by omega, ?_, hlast⟩
        rw [Nat.pow_succ, ← Nat.mul_assoc, ← hn]
        omega
      · exact ⟨n, places + 1, 0, if_neg hzero, rfl, (Nat.mul_one n).symm, fun _ => hzero⟩

/-- **A scaled whole number with its point**: the digits are those of the number but for the zeros taken off, the point
is written only where a digit follows, and the last digit behind it is not zero. -/
theorem pointed_spec (n places : Nat) :
    ∃ (whole : Digits) (fraction : Option Digits),
      (pointed n places).toList = whole.spell ++ Numeral.spellFraction fraction ∧
      whole.Plain ∧ whole.value = n / 10 ^ places ∧
      (∀ digits, fraction = some digits → ∃ d, digits.getLast? = some d ∧ d ≠ 0) ∧
      Digits.value (whole ++ fraction.getD []) ≤ n ∧
      (Digits.value (whole ++ fraction.getD []) : ℚ) / 10 ^ (fraction.getD []).length = n / 10 ^ places := by
  obtain ⟨m, kept, zeros, hstrip, hplaces, hn, hlast⟩ := stripZeros_spec n places
  have hquotient : n / 10 ^ places = m / 10 ^ kept := by
    rw [hn, hplaces, Nat.pow_add, Nat.mul_div_mul_right _ _ (Nat.pow_pos (by decide))]
  have hle : m ≤ n := hn ▸ Nat.le_mul_of_pos_right m (Nat.pow_pos (by decide))
  have hvalue : (m : ℚ) / 10 ^ kept = n / 10 ^ places := by
    rw [hn, hplaces, Nat.cast_mul, Nat.cast_pow, Nat.cast_ofNat, pow_add, mul_div_mul_right _ _ (by positivity)]
  rw [hquotient]
  unfold pointed
  rw [hstrip]
  cases kept with
  | zero =>
      obtain ⟨whole, hspell, hwhole, hplain⟩ := decimal_spec m
      rw [Nat.pow_zero, Nat.div_one]
      refine ⟨whole, none, ?_, hplain, hwhole, nofun, ?_⟩
      · rw [Numeral.spellFraction, List.append_nil]
        exact hspell
      · rw [Option.getD_none, List.append_nil, hwhole]
        exact ⟨hle, hvalue⟩
  | succ kept =>
      obtain ⟨whole, hspell, hwhole, hplain⟩ := decimal_spec (m / 10 ^ (kept + 1))
      obtain ⟨fraction, hspell', hlength, hfraction, hend⟩ := lastDigits_spec (kept + 1) m
      refine ⟨whole, some fraction, ?_, hplain, hwhole, ?_, ?_⟩
      · show (decimal (m / 10 ^ (kept + 1)) ++ "." ++ String.ofList (lastDigits (kept + 1) m)).toList = _
        simp only [String.toList_append, String.toList_ofList, hspell, hspell', List.append_assoc]
        rfl
      · intro digits hdigits
        cases hdigits
        have hne : fraction ≠ [] := List.ne_nil_of_length_eq_add_one hlength
        have hd := List.getLast?_eq_some_getLast hne
        refine ⟨_, hd, fun hzero => hlast (Nat.succ_ne_zero kept) ?_⟩
        rw [← hend _ hd, hzero]
        rfl
      · rw [Option.getD_some, Digits.value_append, hlength, hwhole, hfraction, Nat.div_add_mod']
        exact ⟨hle, hvalue⟩

/-- An exponent has its sign and at least two digits. -/
theorem exponentText_spec (exponent : Int) :
    ∃ digits : Digits, (exponentText exponent).toList = (if exponent < 0 then '-' else '+') :: digits.spell ∧
      digits.value = exponent.natAbs ∧ 2 ≤ digits.length := by
  obtain ⟨digits, hspell, hvalue, hne, -⟩ := decimal_spec exponent.natAbs
  have hsign : (if exponent < 0 then "-" else "+").toList = [if exponent < 0 then '-' else '+'] := by
    split <;> rfl
  unfold exponentText
  dsimp only
  rw [String.toList_append, hsign, List.singleton_append]
  by_cases hsmall : exponent.natAbs < 10
  · refine ⟨0 :: digits, ?_, ?_, ?_⟩
    · rw [if_pos hsmall, String.toList_append, hspell]
      rfl
    · rw [Digits.value_cons, hvalue]
      simp
    · exact Nat.succ_le_succ (List.length_pos_iff.mpr hne)
  · refine ⟨digits, by rw [if_neg hsmall, hspell], hvalue, ?_⟩
    -- one digit is not enough for a number that is not below ten
    apply Nat.le_of_not_lt
    intro hlt
    have hpow : 10 ^ digits.length ≤ 10 ^ 1 := Nat.pow_le_pow_right (by decide) (by omega)
    have hbound := digits.value_lt
    omega

end Number
end Abacus
