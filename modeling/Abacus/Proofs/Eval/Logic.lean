import Abacus.Eval.Operation
import Abacus.Proofs.Number.Exact

/-!
# `Eval.Logic` — logical operators work on truth values

A logical operator turns its operands into integers, combines these bit by bit, and makes a number of the result. It
only does so for zero and one. Zero is found with either sign, and a number is compared by its exact value, so what is
found to be a truth value has that truth value as its whole part (`truncate_of_toTruth?`). On zero and one the bits
behave as truth values do, and the result is a truth value again.

## Contents
- `exactValue?_of_beq` — numbers that compare as equal;
- `truncate_of_exactValue?` — the whole part of a whole number;
- `toTruth?` — the truth value a number stands for;
- `logic_eq` — logical operators on truth values.
-/

namespace Abacus
namespace Number

open Float.Model (UnpackedFloat)

/-! ## Equal numbers -/

/-- Numbers that compare as equal have the same exact value, also zeros of different signs. -/
theorem unpackedValue?_of_compare {u v : UnpackedFloat} (h : u.compare v = some .eq) :
    unpackedValue? u = unpackedValue? v := by
  cases u with
  | notANumber => cases h
  | infinity sign =>
      cases v with
      | infinity sign' => rfl
      | _ => cases sign <;> cases h
  | zero sign =>
      cases v with
      | zero sign' => rfl
      | notANumber => cases h
      | infinity sign' => cases sign' <;> cases h
      | finite sign' mantissa' exponent' hpos' => cases sign' <;> cases h
  | finite sign mantissa exponent hpos =>
      cases v with
      | notANumber => cases h
      | infinity sign' => cases sign' <;> cases h
      | zero sign' => cases sign <;> cases h
      | finite sign' mantissa' exponent' hpos' =>
          -- numbers of the same sign are compared by exponent and mantissa
          have hsame (heq : (compare exponent exponent').then (compare mantissa mantissa') = .eq) :
              exponent = exponent' ∧ mantissa = mantissa' := by
            obtain ⟨hexponent, hmantissa⟩ := Ordering.then_eq_eq.mp heq
            exact ⟨Std.compare_eq_iff_eq.mp hexponent, Std.compare_eq_iff_eq.mp hmantissa⟩
          cases sign with
          | positive =>
              cases sign' with
              | negative => cases h
              | positive =>
                  obtain ⟨rfl, rfl⟩ := hsame (Option.some.inj h)
                  rfl
          | negative =>
              cases sign' with
              | positive => cases h
              | negative =>
                  obtain ⟨rfl, rfl⟩ := hsame (Ordering.swap_eq_eq.mp (Option.some.inj h))
                  rfl

theorem exactValue?_of_beq {x y : Float} (h : (x == y) = true) : exactValue? x = exactValue? y := by
  have hbeq : (x.toModel.unpack.compare y.toModel.unpack == some .eq) = true := h
  exact unpackedValue?_of_compare (eq_of_beq hbeq)

/-! ## Whole parts -/

/-- The whole part of a whole number is that number, if it fits in a word. -/
theorem truncate_of_exactValue? {x : Float} {i : Int} (h : exactValue? x = some (i : ℚ)) :
    truncate x = clampWord i := by
  rw [exactValue?_eq] at h
  unfold truncate
  cases hdecode : decode x with
  | nan => rw [hdecode] at h; cases h
  | infinite negative => rw [hdecode] at h; cases h
  | finite negative units =>
      rw [hdecode] at h
      have hone : (one : Int) ≠ 0 := Int.natCast_ne_zero.mpr (Nat.ne_of_gt one_units_pos)
      have hvalue : signed negative ((units : ℚ) / one) = i := Option.some.inj h
      cases negative with
      | false =>
          have hunits : (units : Int) = i * one := by
            have hrat : (units : ℚ) = i * one := (div_eq_iff one_units_ne).mp hvalue
            exact_mod_cast hrat
          show clampWord ((units / one : Nat) : Int) = clampWord i
          rw [Int.natCast_ediv, hunits, Int.mul_ediv_cancel _ hone]
      | true =>
          have hunits : (units : Int) = -i * one := by
            have hrat : (units : ℚ) = -i * one := (div_eq_iff one_units_ne).mp (neg_eq_iff_eq_neg.mp hvalue)
            exact_mod_cast hrat
          show clampWord (-((units / one : Nat) : Int)) = clampWord i
          rw [Int.natCast_ediv, hunits, Int.mul_ediv_cancel _ hone, Int.neg_neg]

/-! ## Truth values -/

/-- The truth value a number stands for, if it is zero or one. -/
def toTruth? (x : Float) : Option Bool :=
  if x == 0 then some false
  else if x == 1 then some true
  else none

theorem isTruth_eq (x : Float) : isTruth x = (toTruth? x).isSome := by
  unfold isTruth toTruth?
  cases x == 0 <;> cases x == 1 <;> rfl

/-- The whole part of a truth value is one for truth and zero for falsehood. -/
theorem truncate_of_toTruth? {x : Float} {b : Bool} (h : toTruth? x = some b) : truncate x = b.toInt := by
  have hzero : exactValue? 0 = some ((0 : Int) : ℚ) := by decide +kernel
  have hone : exactValue? 1 = some ((1 : Int) : ℚ) := by decide +kernel
  unfold toTruth? at h
  split at h
  · next heq =>
    cases h
    exact truncate_of_exactValue? ((exactValue?_of_beq heq).trans hzero)
  · split at h
    · next heq =>
      cases h
      exact truncate_of_exactValue? ((exactValue?_of_beq heq).trans hone)
    · cases h

theorem ofInt_toInt (b : Bool) : ofInt b.toInt = ofTruth b := by
  cases b with
  | false => decide +kernel
  | true => decide +kernel

end Number

open Number (toTruth? ofTruth)

/-- **Logical operators work on truth values.** Where both operands are zero or one, the result is the number of the
truth value that the operator makes of theirs; where one of them is not, the operator fails. -/
theorem logic_eq (op : Operator) (x y : Float) (other : Operator → Except RuntimeError Float) :
    logic op x y other = match toTruth? x, toTruth? y with
      | some a, some b =>
        match op with
        | .and => .ok (ofTruth (a && b))
        | .xor => .ok (ofTruth (a != b))
        | .or => .ok (ofTruth (a || b))
        | op => other op
      | _, _ => .error .invalidOperandType := by
  have hand : ∀ a b : Bool, Number.bitwise (· &&& ·) a.toInt b.toInt = (a && b).toInt := by decide
  have hxor : ∀ a b : Bool, Number.bitwise (· ^^^ ·) a.toInt b.toInt = (a != b).toInt := by decide
  have hor : ∀ a b : Bool, Number.bitwise (· ||| ·) a.toInt b.toInt = (a || b).toInt := by decide
  unfold logic
  rw [Number.isTruth_eq, Number.isTruth_eq]
  cases hx : toTruth? x with
  | none => rfl
  | some a =>
      cases hy : toTruth? y with
      | none => rfl
      | some b =>
          rw [Number.truncate_of_toTruth? hx, Number.truncate_of_toTruth? hy]
          simp only [hand, hxor, hor, Number.ofInt_toInt]
          rfl

end Abacus
