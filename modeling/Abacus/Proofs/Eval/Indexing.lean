import Abacus.Eval.Term
import Abacus.Proofs.Number.Significant

/-!
# `Eval.Indexing` — elements are found at the exact place, or not at all

An index is a number, and the length of an array is turned into a number before the two are compared. Beyond `2^53`
this rounds the length, up or down. A number that is below the rounded length is below the length all the same,
because it has no more significant bits than the rounded length has.

So a place that was found is always in range. Reading and writing guard against places that are not, and
`evalDirect` shows that they need not: it does something arbitrary where there is no element, and ends as evaluation
does.

## Contents
- `position_cases` — what becomes of an index, by its exact value;
- `readElement_eq`, `writeElement_eq` — what is done out of range does not matter;
- `evalDirect`, `evalDirect_eq` — nor does it to an evaluation;
- `indexing_is_exact` — both together.
-/

namespace Abacus

open Number (exactValue? one one_units_pos one_units_ne twoTo twoTo_pos twoTo_add Significant roundSignificant)

/-! ## Places -/

namespace Elements

variable {x : Float} {length i : Nat}

/-- A whole number that is a binary64 number has at most 53 significant bits. -/
theorem significant_of_units {negative : Bool} {whole : Nat}
    (h : Number.decode x = .finite negative (whole * one)) : Significant whole := by
  obtain ⟨mantissa, shift, hunits, hlt⟩ := Number.decode_units h
  by_cases hshift : 1074 ≤ shift
  · obtain ⟨k, rfl⟩ := Nat.exists_eq_add_of_le' hshift
    refine ⟨mantissa, k, ?_, hlt⟩
    apply Nat.eq_of_mul_eq_mul_right one_units_pos
    rw [hunits, twoTo_add, one, Nat.mul_assoc]
  · obtain ⟨k, hk⟩ := Nat.exists_eq_add_of_le' (Nat.le_of_not_le hshift)
    have hmantissa : mantissa = whole * twoTo k := by
      apply Nat.eq_of_mul_eq_mul_right (twoTo_pos shift)
      rw [← hunits, one, hk, twoTo_add, Nat.mul_assoc]
    have hle : whole ≤ mantissa := hmantissa ▸ Nat.le_mul_of_pos_right whole (twoTo_pos k)
    exact ⟨whole, 0, (Nat.mul_one whole).symm, Nat.lt_of_le_of_lt hle hlt⟩

/-- A fraction that leaves a rest is not a whole number, whatever its sign. -/
theorem fract_signed_ne (negative : Bool) {num den : Nat} (hden : (den : ℚ) ≠ 0) (h : num % den ≠ 0) :
    Int.fract (Number.signed negative (num / den)) ≠ 0 := by
  intro hfract
  obtain ⟨n, hn⟩ := Int.fract_eq_zero_iff.mp hfract
  have habs : ((n.natAbs : Nat) : ℚ) = num / den := by
    rw [Nat.cast_natAbs, Int.cast_abs, hn, Number.signed]
    split <;> simp [abs_div]
  have hcast : ((n.natAbs * den : Nat) : ℚ) = num := by
    rw [Nat.cast_mul, habs, div_mul_cancel₀ _ hden]
  apply h
  rw [← Nat.cast_injective hcast, Nat.mul_mod_left]

/-- The value of a whole number of units. -/
theorem value?_whole (negative : Bool) (whole : Nat) :
    (Number.Decoded.finite negative (whole * one)).value? = some (Number.signed negative whole) := by
  rw [Number.Decoded.value?, Nat.cast_mul, mul_div_cancel_right₀ _ one_units_ne]

/-- **What becomes of an index**, by its exact value. -/
theorem position_cases (x : Float) (length : Nat) :
    (exactValue? x = none ∧ position x length = .error .integerIndexRequired) ∨
    (∃ q, exactValue? x = some q ∧ Int.fract q ≠ 0 ∧ position x length = .error .integerIndexRequired) ∨
    (∃ n : ℤ, exactValue? x = some (n : ℚ) ∧ n < 0 ∧ position x length = .error .outOfBounds) ∨
    (∃ i : Nat, exactValue? x = some (i : ℚ) ∧ Significant i ∧
      position x length = if i < roundSignificant length then .ok i else .error .outOfBounds) := by
  rw [Number.exactValue?_eq, position]
  cases hdecode : Number.decode x with
  | nan => exact .inl ⟨rfl, rfl⟩
  | infinite negative => exact .inl ⟨rfl, rfl⟩
  | finite negative units =>
      dsimp only
      by_cases hrest : units % one = 0
      · rw [if_neg (not_not_intro hrest)]
        obtain ⟨whole, hwhole⟩ : ∃ whole, units = whole * one :=
          ⟨units / one, (Nat.div_mul_cancel (Nat.dvd_of_mod_eq_zero hrest)).symm⟩
        rw [hwhole] at hdecode ⊢
        rw [value?_whole, Nat.mul_div_cancel _ one_units_pos]
        have hsignificant := significant_of_units hdecode
        cases negative with
        | false => exact .inr (.inr (.inr ⟨whole, rfl, hsignificant, rfl⟩))
        | true =>
            by_cases hzero : whole = 0
            · subst hzero
              rw [Nat.zero_mul]
              exact .inr (.inr (.inr ⟨0, congrArg some neg_zero, hsignificant, rfl⟩))
            · have hunits : whole * one ≠ 0 := Nat.mul_ne_zero hzero (Nat.ne_of_gt one_units_pos)
              refine .inr (.inr (.inl ⟨-whole, ?_, by omega, if_pos (by simpa using hunits)⟩))
              rw [Int.cast_neg, Int.cast_natCast]
              rfl
      · exact .inr (.inl ⟨_, rfl, fract_signed_ne negative one_units_ne hrest, if_pos hrest⟩)

/-- A place is found exactly if the index is a whole number below the rounded length. -/
theorem position_eq_ok_iff :
    position x length = .ok i ↔ exactValue? x = some (i : ℚ) ∧ i < roundSignificant length := by
  rcases position_cases x length with ⟨hx, hp⟩ | ⟨q, hx, hq, hp⟩ | ⟨n, hx, hn, hp⟩ | ⟨j, hx, -, hp⟩
  · simp [hx, hp]
  · rw [hx, hp, Option.some.injEq]
    refine ⟨nofun, ?_⟩
    rintro ⟨rfl, -⟩
    exact absurd (Int.fract_natCast i) hq
  · rw [hx, hp, Option.some.injEq]
    refine ⟨nofun, ?_⟩
    rintro ⟨hcast, -⟩
    have : n = (i : ℤ) := by exact_mod_cast hcast
    omega
  · rw [hx, hp, Option.some.injEq, Nat.cast_inj]
    constructor
    · intro h
      split at h
      · next hlt =>
        cases h
        exact ⟨rfl, hlt⟩
      · cases h
    · rintro ⟨rfl, hlt⟩
      exact if_pos hlt

/-- An index that is no whole number is refused as such, and no other is. -/
theorem position_eq_integerIndexRequired_iff :
    position x length = .error .integerIndexRequired ↔
      exactValue? x = none ∨ ∃ q, exactValue? x = some q ∧ Int.fract q ≠ 0 := by
  rcases position_cases x length with ⟨hx, hp⟩ | ⟨q, hx, hq, hp⟩ | ⟨n, hx, hn, hp⟩ | ⟨j, hx, -, hp⟩
  · simp [hx, hp]
  · simp [hx, hp, hq]
  · simp [hx, hp]
  · rw [hx, hp]
    refine ⟨fun h => ?_, ?_⟩
    · split at h <;> cases h
    · rintro (h | ⟨q, hq, hfract⟩)
      · cases h
      · cases hq
        exact absurd (Int.fract_natCast j) hfract

/-- A whole number is refused if it is negative or not below the rounded length. -/
theorem position_eq_outOfBounds_iff :
    position x length = .error .outOfBounds ↔
      ∃ n : ℤ, exactValue? x = some (n : ℚ) ∧ (n < 0 ∨ (roundSignificant length : ℤ) ≤ n) := by
  rcases position_cases x length with ⟨hx, hp⟩ | ⟨q, hx, hq, hp⟩ | ⟨n, hx, hn, hp⟩ | ⟨j, hx, -, hp⟩
  · simp [hx, hp]
  · rw [hx, hp]
    refine ⟨nofun, ?_⟩
    rintro ⟨n, hn, -⟩
    cases hn
    exact absurd (Int.fract_intCast n) hq
  · rw [hp]
    exact ⟨fun _ => ⟨n, hx, .inl hn⟩, fun _ => rfl⟩
  · rw [hx, hp]
    constructor
    · intro h
      split at h
      · cases h
      · next hge => exact ⟨j, by rw [Int.cast_natCast], .inr (by omega)⟩
    · rintro ⟨n, hn, hout⟩
      have hcast : (j : ℤ) = n := by exact_mod_cast Option.some.inj hn
      exact if_neg (by omega)

/-- A place that is found is in range, also where the length was rounded up. -/
theorem lt_of_position (h : position x length = .ok i) : i < length := by
  rcases position_cases x length with ⟨-, hp⟩ | ⟨-, -, -, hp⟩ | ⟨-, -, -, hp⟩ | ⟨j, -, hsignificant, hp⟩ <;>
    rw [hp] at h
  · cases h
  · cases h
  · cases h
  · split at h
    · next hlt =>
      cases h
      exact Number.lt_of_lt_roundSignificant hsignificant hlt
    · cases h

end Elements

namespace Eval

/-! ## Access -/

section Access

variable (beyond : Eval Float) {elements : Elements} {index : Float} {i : Nat}

/-- Reading at a place that is found gives the element there. -/
theorem readElement_of_position (h : Elements.position index elements.size = .ok i) (hlt : i < elements.size) :
    readElement beyond elements index = pure elements[i] := by
  unfold readElement
  rw [h]
  show (if h : i < elements.size then pure elements[i] else beyond) = _
  exact dif_pos hlt

theorem readElement_of_refused {e : RuntimeError} (h : Elements.position index elements.size = .error e) :
    readElement beyond elements index = fail e := by
  unfold readElement
  rw [h]
  rfl

/-- Writing at a place that is found sets the element there. -/
theorem writeElement_of_position (name : String) (value : Float)
    (h : Elements.position index elements.size = .ok i) (hlt : i < elements.size) :
    writeElement beyond name elements index value = do
      update (·.bindArray name (elements.set i value))
      return value := by
  unfold writeElement
  rw [h]
  show (if h : i < elements.size then _ else beyond) = _
  exact dif_pos hlt

theorem writeElement_of_refused (name : String) (value : Float) {e : RuntimeError}
    (h : Elements.position index elements.size = .error e) :
    writeElement beyond name elements index value = fail e := by
  unfold writeElement
  rw [h]
  rfl

/-- A place that is found is in range, so it does not matter what is done beyond. -/
theorem readElement_eq (beyond' : Eval Float) (elements : Elements) (index : Float) :
    readElement beyond elements index = readElement beyond' elements index := by
  cases hposition : Elements.position index elements.size with
  | error e => rw [readElement_of_refused _ hposition, readElement_of_refused _ hposition]
  | ok i =>
      have hlt := Elements.lt_of_position hposition
      rw [readElement_of_position _ hposition hlt, readElement_of_position _ hposition hlt]

theorem writeElement_eq (beyond' : Eval Float) (name : String) (elements : Elements) (index value : Float) :
    writeElement beyond name elements index value = writeElement beyond' name elements index value := by
  cases hposition : Elements.position index elements.size with
  | error e => rw [writeElement_of_refused _ name value hposition, writeElement_of_refused _ name value hposition]
  | ok i =>
      have hlt := Elements.lt_of_position hposition
      rw [writeElement_of_position _ name value hposition hlt, writeElement_of_position _ name value hposition hlt]

end Access

/-! ## Evaluation -/

/-- One round of the evaluator never goes to a place that is out of range. -/
theorem step_beyond (arms : Arms) (beyond : Eval Float) (n : Nat) (ev : Term → Eval Float) (term : Term) :
    step { arms with beyond } n ev term = step arms n ev term := by
  cases term with
  | lookup name index =>
      simp only [step, lookup, readElement_eq beyond arms.beyond]
  | store name index value =>
      simp only [step, store, writeElement_eq beyond arms.beyond]
  | elseClause nested inside => cases nested <;> rfl
  | _ => rfl

/-- Evaluation with `beyond` wherever an access to an array goes out of range. -/
def evalDirect (beyond : Eval Float) : Nat → Term → Eval Float :=
  evalWith { toRecheck := .failing, operator := complain, beyond }

/-- **Evaluation never goes to a place that is out of range.** -/
theorem evalDirect_eq (beyond : Eval Float) (fuel : Nat) (term : Term) :
    evalDirect beyond fuel term = eval fuel term := by
  induction fuel generalizing term with
  | zero => rfl
  | succ n ih =>
      have hparts : evalDirect beyond n = eval n := funext ih
      show step _ n (evalDirect beyond n) term = step .failing n (eval n) term
      rw [hparts]
      exact step_beyond .failing beyond n (eval n) term

/-- **Elements are found at the exact place, or not at all.** Up to a length of `2^53` a place is found exactly for the
whole numbers from `0` on that are below the length; a number that is not whole is refused as such, and every other one
as out of bounds. Beyond that the length is compared as the binary64 number nearest to it, and a place that is found is
still in range and the exact value of the index. So wherever evaluation goes to an element, in whatever state the index
and the value have left the array, there is one. -/
theorem indexing_is_exact :
    (∀ (x : Float) (length : Nat),
      (length ≤ 2 ^ 53 →
        (∀ i : Nat, Elements.position x length = .ok i ↔ exactValue? x = some (i : ℚ) ∧ i < length) ∧
        (Elements.position x length = .error .outOfBounds ↔
          ∃ n : ℤ, exactValue? x = some (n : ℚ) ∧ (n < 0 ∨ (length : ℤ) ≤ n))) ∧
      (Elements.position x length = .error .integerIndexRequired ↔
        exactValue? x = none ∨ ∃ q, exactValue? x = some q ∧ Int.fract q ≠ 0) ∧
      (length < 2 ^ 64 → ∀ i : Nat,
        (Elements.position x length = .ok i ↔
          ∃ bound, exactValue? (Number.ofNat length) = some bound ∧ exactValue? x = some (i : ℚ) ∧ (i : ℚ) < bound) ∧
        (Elements.position x length = .ok i → exactValue? x = some (i : ℚ) ∧ i < length))) ∧
    ∀ (beyond : Eval Float) (fuel : Nat) (term : Term) (env : Env),
      evalDirect beyond fuel term env = eval fuel term env := by
  refine ⟨fun x length => ⟨fun hlength => ?_, Elements.position_eq_integerIndexRequired_iff,
    fun hlength i => ⟨?_, fun h => ?_⟩⟩, fun beyond fuel term env => ?_⟩
  · rw [Elements.position_eq_outOfBounds_iff, Number.roundSignificant_eq hlength]
    refine ⟨fun i => ?_, Iff.rfl⟩
    rw [Elements.position_eq_ok_iff, Number.roundSignificant_eq hlength]
  · rw [Elements.position_eq_ok_iff, Number.exactValue?_ofNat hlength]
    simp
  · exact ⟨(Elements.position_eq_ok_iff.mp h).1, Elements.lt_of_position h⟩
  · rw [evalDirect_eq]

/-- A length that is rounded up to `2^53 + 4`, the greatest length that is never rounded, and minus zero. -/
theorem indexing_is_exact_at_the_edges :
    (2 ^ 53 + 3 < 2 ^ 64 ∧
      Elements.position (Number.ofNat (2 ^ 53 + 2)) (2 ^ 53 + 3) = .ok (2 ^ 53 + 2)) ∧
    (2 ^ 53 ≤ 2 ^ 53 ∧
      Elements.position (Number.ofNat (2 ^ 53)) (2 ^ 53) = .error .outOfBounds) ∧
    (1 ≤ 2 ^ 53 ∧ Elements.position (-0.0) 1 = .ok 0) := by
  have hlength : exactValue? (Number.ofNat (2 ^ 53 + 3)) = some (2 ^ 53 + 4) := by decide +kernel
  have hbelow : exactValue? (Number.ofNat (2 ^ 53 + 2)) = some ((2 ^ 53 + 2 : Nat) : ℚ) := by decide +kernel
  have htop : exactValue? (Number.ofNat (2 ^ 53)) = some ((2 ^ 53 : ℤ) : ℚ) := by decide +kernel
  have hzero : exactValue? (-0.0) = some ((0 : Nat) : ℚ) := by decide +kernel
  refine ⟨⟨by decide, ?_⟩, ⟨by decide, ?_⟩, ⟨by decide, ?_⟩⟩
  · exact (((indexing_is_exact.1 _ (2 ^ 53 + 3)).2.2 (by decide) _).1).mpr ⟨_, hlength, hbelow, by norm_num⟩
  · exact ((indexing_is_exact.1 _ (2 ^ 53)).1 (by decide)).2.mpr ⟨_, htop, .inr (by decide)⟩
  · exact (((indexing_is_exact.1 _ 1).1 (by decide)).1 0).mpr ⟨hzero, by decide⟩

end Eval
end Abacus
