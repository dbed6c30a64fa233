import Abacus.Proofs.Eval.Indexing
import Abacus.Proofs.Eval.Returns

/-!
# `Eval.Storing` — reading what was written to an element

To write to an element, first the index is evaluated and checked, then the value, and either may do anything to the
array on the way: push to it, pop from it, or put another one in its place. What is written to is the array **as the
value has left it**, and the index has to fit there again.

So three states matter, the one before, the one behind the index and the one behind the value. `Operands` describes
how they follow one another, and everything else is said about the last one: the element is written there and nothing
else is changed, or it is left as it is because the place is gone.

## Contents
- `Operands` — the index and the value, up to the point of writing;
- `store_of_operands`, `operands_of_store` — what a store does, and what it has done;
- `lookup_literal` — reading an element with a literal index;
- `store_then_lookup` — reading over writing.
-/

namespace Abacus

open Number (exactValue?)

/-! ## One index, two lengths -/

namespace Elements

variable {x : Float} {p q length length' : Nat}

/-- An index denotes the same place at whatever length it fits. -/
theorem position_unique (h : position x length = .ok p) (h' : position x length' = .ok q) : p = q := by
  have hp := (position_eq_ok_iff.mp h).1
  have hq := (position_eq_ok_iff.mp h').1
  exact Nat.cast_injective (Option.some.inj (hp.symm.trans hq))

/-- An index whose place is out of range is refused as that. -/
theorem position_outOfBounds (h : position x length = .ok p) (hle : length' ≤ p) :
    position x length' = .error .outOfBounds := by
  have hexact := (position_eq_ok_iff.mp h).1
  apply position_eq_outOfBounds_iff.mpr
  refine ⟨p, by rw [hexact, Int.cast_natCast], .inr ?_⟩
  apply Int.ofNat_le.mpr
  apply Nat.le_of_not_lt
  intro hlt
  have hfits := lt_of_position (position_eq_ok_iff.mpr ⟨hexact, hlt⟩)
  omega

end Elements

namespace Env

theorem array?_bindArray_self (env : Env) (name : String) (elements : Elements) :
    (env.bindArray name elements).array? name = some elements := by
  rw [array?, bindArray, Table.get?_insert, if_pos rfl]

theorem array?_bindArray_of_ne (env : Env) {name other : String} (h : other ≠ name) (elements : Elements) :
    (env.bindArray name elements).array? other = env.array? other := by
  rw [array?, bindArray, Table.get?_insert, if_neg h]
  rfl

end Env

/-- A place is found only in an array that is there. -/
theorem place_of_getD {elements? : Option Elements} {x : Float} {p : Nat}
    (h : Elements.position x (elements?.getD #[]).size = .ok p) :
    ∃ elements, elements? = some elements ∧ Elements.position x elements.size = .ok p := by
  cases elements? with
  | none => exact absurd (Elements.lt_of_position h) (Nat.not_lt_zero p)
  | some elements => exact ⟨elements, rfl, h⟩

namespace Eval

variable {α β : Type}

/-! ## Evaluation as a relation -/

theorem bind_eq_ok {x : Eval α} {f : α → Eval β} {env after : Env} {b : β}
    (h : (x >>= f) env = some (.ok b, after)) :
    ∃ a mid, x env = some (.ok a, mid) ∧ f a mid = some (.ok b, after) := by
  rw [bind_apply] at h
  split at h
  · cases h
  · next a mid hx => exact ⟨a, mid, hx, h⟩
  · cases h

theorem bind_of_ok {x : Eval α} {f : α → Eval β} {env mid : Env} {a : α} (h : x env = some (.ok a, mid)) :
    (x >>= f) env = f a mid := by
  rw [bind_apply, h]

/-- A calculation that the rest goes on from has a value. -/
theorem lift_eq_ok {result : Except RuntimeError α} {f : α → Eval β} {env after : Env} {b : β}
    (h : (lift result >>= f) env = some (.ok b, after)) :
    ∃ a, result = .ok a ∧ f a env = some (.ok b, after) := by
  obtain ⟨a, mid, hlift, hf⟩ := bind_eq_ok h
  cases hlift
  exact ⟨a, rfl, hf⟩

theorem lift_bind (a : α) (f : α → Eval β) (s : Env) : (lift (.ok a) >>= f) s = f a s := rfl

/-- An evaluation that ends leaves bound what was bound. -/
theorem Evaluates.keeps {term : Term} {env after : Env} {r : Except RuntimeError Float}
    (h : Evaluates term env r after) : env.Keeps after := by
  obtain ⟨fuel, heval⟩ := h
  let law := keepsLaw (fun _ => True) (fun _ _ => trivial) (fun _ _ => trivial)
  exact (eval_maintains (L := law) (Nat.le_refl fuel) trivial heval).2

/-! ## Up to the point of writing -/

/-- The index `x` denotes the place `p` in the array as it is behind the index, in the state `s₁`, and the value is
`r`, with the state `s₂` behind it. -/
structure Operands (name : String) (index value : Term) (env : Env) (x : Float) (p : Nat) (s₁ : Env) (r : Float)
    (s₂ : Env) : Prop where
  bound : env.arrays.contains name = true
  index : Evaluates index env (.ok x) s₁
  place : ∃ elements, s₁.array? name = some elements ∧ Elements.position x elements.size = .ok p
  value : Evaluates value s₁ (.ok r) s₂

section Store

variable {name : String} {index value : Term} {env s₁ s₂ after : Env} {x r : Float} {p : Nat}

/-- The array is still there when the value is known. -/
theorem Operands.array (h : Operands name index value env x p s₁ r s₂) :
    ∃ elements, s₂.array? name = some elements := by
  obtain ⟨elements, hget, -⟩ := h.place
  exact Table.contains_iff.mp (h.value.keeps.arrays name (Table.contains_iff.mpr ⟨elements, hget⟩))

/-- Where an index fits that denotes a place at another length, the element at that place is written. -/
theorem writeElement_eq_ok {beyond : Eval Float} {elements : Elements} {env after : Env} {x r result : Float}
    {length p : Nat} (h : Elements.position x length = .ok p)
    (hwritten : writeElement beyond name elements x r env = some (.ok result, after)) :
    ∃ hlt : p < elements.size, result = r ∧ after = env.bindArray name (elements.set p r) := by
  cases hposition : Elements.position x elements.size with
  | error e =>
      rw [writeElement_of_refused beyond name r hposition] at hwritten
      cases hwritten
  | ok q =>
      have hlt := Elements.lt_of_position hposition
      rw [writeElement_of_position beyond name r hposition hlt] at hwritten
      cases hwritten
      obtain rfl := Elements.position_unique h hposition
      exact ⟨hlt, rfl, rfl⟩

/-- What is left to do once the operands are known. -/
theorem store_of_operands (h : Operands name index value env x p s₁ r s₂) {elements : Elements}
    (helements : s₂.array? name = some elements) :
    ∃ fuel, eval fuel (.store name index value) env = writeElement (fail .outOfBounds) name elements x r s₂ := by
  obtain ⟨n, hindex⟩ := h.index
  obtain ⟨m, hvalue⟩ := h.value
  obtain ⟨first, hfirst, hplace⟩ := h.place
  refine ⟨max n m + 1, ?_⟩
  show store .failing (eval (max n m)) name index value env = _
  unfold store
  rw [env_bind, h.bound, if_neg (by decide)]
  rw [bind_of_ok (eval_mono (Nat.le_max_left n m) hindex), env_bind, hfirst, Option.getD_some, hplace, lift_bind]
  rw [bind_of_ok (eval_mono (Nat.le_max_right n m) hvalue), env_bind, helements]
  rfl

/-- Where the index still fits, the store gives the value and writes it. -/
theorem Operands.store_fits (h : Operands name index value env x p s₁ r s₂) {last : Elements}
    (hlast : s₂.array? name = some last) (hposition : Elements.position x last.size = .ok p)
    (hlt : p < last.size) :
    Evaluates (.store name index value) env (.ok r) (s₂.bindArray name (last.set p r)) := by
  obtain ⟨fuel, hstore⟩ := store_of_operands h hlast
  refine ⟨fuel, ?_⟩
  rw [hstore, writeElement_of_position _ name r hposition hlt]
  rfl

/-- Where the place is gone, the store leaves the state as the value has left it. -/
theorem Operands.store_refused (h : Operands name index value env x p s₁ r s₂) {last : Elements}
    (hlast : s₂.array? name = some last) (hout : last.size ≤ p) :
    Evaluates (.store name index value) env (.error .outOfBounds) s₂ := by
  obtain ⟨first, -, hplace⟩ := h.place
  obtain ⟨fuel, hstore⟩ := store_of_operands h hlast
  refine ⟨fuel, ?_⟩
  rw [hstore, writeElement_of_refused _ name r (Elements.position_outOfBounds hplace hout)]
  rfl

/-- A store that has given a value has come to the point of writing, and has written. -/
theorem operands_of_store (h : Evaluates (.store name index value) env (.ok r) after) :
    ∃ x p s₁ s₂ elements, Operands name index value env x p s₁ r s₂ ∧ s₂.array? name = some elements ∧
      ∃ hlt : p < elements.size, after = s₂.bindArray name (elements.set p r) := by
  obtain ⟨_ | n, heval⟩ := h
  · cases heval
  · change store .failing (eval n) name index value env = _ at heval
    unfold store at heval
    rw [env_bind] at heval
    split at heval
    · cases heval
    · next hbound =>
      obtain ⟨x, s₁, hindex, heval⟩ := bind_eq_ok heval
      rw [env_bind] at heval
      obtain ⟨p, hplace, heval⟩ := lift_eq_ok heval
      obtain ⟨result, s₂, hvalue, heval⟩ := bind_eq_ok heval
      rw [env_bind] at heval
      cases hget : s₂.array? name with
      | none =>
          rw [hget] at heval
          cases heval
      | some elements =>
          rw [hget] at heval
          obtain ⟨hlt, rfl, rfl⟩ := writeElement_eq_ok hplace heval
          have hoperands : Operands name index value env x p s₁ r s₂ :=
            ⟨by simpa using hbound, ⟨n, hindex⟩, place_of_getD hplace, ⟨n, hvalue⟩⟩
          exact ⟨x, p, s₁, s₂, elements, hoperands, hget, hlt, rfl⟩

end Store

/-! ## Reading -/

/-- Reading an element with a literal index that fits. -/
theorem lookup_literal {name : String} {env : Env} {elements : Elements} {x : Float} {k : Nat}
    (helements : env.array? name = some elements) (hk : Elements.position x elements.size = .ok k)
    (hlt : k < elements.size) : Evaluates (.lookup name (.number x)) env (.ok elements[k]) env := by
  refine ⟨2, ?_⟩
  show lookup .failing (eval 1) name (.number x) env = _
  unfold lookup
  rw [bind_of_ok (show eval 1 (.number x) env = some (.ok x, env) from rfl), env_bind, helements]
  show readElement _ elements x env = _
  rw [readElement_of_position _ hk hlt]
  rfl

theorem getElem?_written {last : Elements} {p : Nat} (hlt : p < last.size) (r : Float) (k : Nat) :
    (last.set p r)[k]? = if k = p then some r else last[k]? := by
  rw [Array.getElem?_set hlt]
  simp only [eq_comm]

/-- A literal index that fits reads what was written, and at any other place what was there before. -/
theorem lookup_written (name : String) (env : Env) {last : Elements} {p k : Nat} {literal : Float} (r : Float)
    (hlt : p < last.size) (hk : Elements.position literal last.size = .ok k) :
    let after := env.bindArray name (last.set p r)
    ∃ v, Evaluates (.lookup name (.number literal)) after (.ok v) after ∧
      some v = if k = p then some r else last[k]? := by
  intro after
  have hposition : Elements.position literal (last.set p r).size = .ok k := by rw [Array.size_set hlt, hk]
  have hrange := Elements.lt_of_position hposition
  refine ⟨_, lookup_literal (Env.array?_bindArray_self env name _) hposition hrange, ?_⟩
  rw [← getElem?_written hlt, Array.getElem?_eq_getElem hrange]

/-- **Reading over writing.** A store that gives a value has evaluated its index, which denotes a place in the array,
and then its value. The place is in range behind the index and behind the value; behind the store the state is that
behind the value, except for the element at that place. So a literal index that is in range then reads the value at
that place, and the element behind the value at any other.

If the array was bound and the place was in range behind the index, but is not behind the value, then the store fails
as out of bounds, and the state is the one behind the value. Where it still fits, the store gives the value. -/
theorem store_then_lookup (name : String) (index value : Term) (env : Env) :
    (∀ r after, Evaluates (.store name index value) env (.ok r) after →
      ∃ x p s₁ s₂ first last, Operands name index value env x p s₁ r s₂ ∧
        s₁.array? name = some first ∧ p < first.size ∧
        s₂.array? name = some last ∧ p < last.size ∧
        after = { s₂ with arrays := after.arrays } ∧
        (∃ written, after.array? name = some written ∧ written.size = last.size ∧
          ∀ k : Nat, written[k]? = if k = p then some r else last[k]?) ∧
        (∀ other, other ≠ name → after.array? other = s₂.array? other) ∧
        ∀ (literal : Float) (k : Nat),
          (Elements.position literal last.size = .ok k ∨
            last.size ≤ 2 ^ 53 ∧ exactValue? literal = some (k : ℚ) ∧ k < last.size) →
          ∃ v, Evaluates (.lookup name (.number literal)) after (.ok v) after ∧
            some v = if k = p then some r else last[k]?) ∧
    ∀ x p s₁ r s₂, Operands name index value env x p s₁ r s₂ →
      ∃ last, s₂.array? name = some last ∧
        (last.size ≤ p → Evaluates (.store name index value) env (.error .outOfBounds) s₂) ∧
        (Elements.position x last.size = .ok p →
          ∃ after, Evaluates (.store name index value) env (.ok r) after) := by
  constructor
  · intro r after h
    obtain ⟨x, p, s₁, s₂, last, hoperands, hlast, hlt, rfl⟩ := operands_of_store h
    obtain ⟨first, hfirst, hplace⟩ := hoperands.place
    refine ⟨x, p, s₁, s₂, first, last, hoperands, hfirst, Elements.lt_of_position hplace, hlast, hlt, rfl,
      ⟨_, Env.array?_bindArray_self s₂ name _, Array.size_set hlt, getElem?_written hlt r⟩,
      fun other hne => Env.array?_bindArray_of_ne s₂ hne _, ?_⟩
    intro literal k hk
    apply lookup_written name s₂ r hlt
    rcases hk with hk | ⟨hsize, hexact, hrange⟩
    · exact hk
    · rw [Elements.position_eq_ok_iff, Number.roundSignificant_eq hsize]
      exact ⟨hexact, hrange⟩
  · intro x p s₁ r s₂ hoperands
    obtain ⟨last, hlast⟩ := hoperands.array
    exact ⟨last, hlast, hoperands.store_refused hlast, fun hposition =>
      ⟨_, hoperands.store_fits hlast hposition (Elements.lt_of_position hposition)⟩⟩

/-- With `a` bound to `[0, 1]`, the store `a[1] = push(a, 1)` writes to the longer array, and `a[1] = pop(a)` finds the
place gone. -/
theorem store_then_lookup_resized :
    let env := Env.empty.bindArray "a" #[0, 1]
    let push : Term := .call "push" [.var "a", .boolean true]
    let pop : Term := .call "pop" [.var "a"]
    (∃ after, Evaluates (.store "a" (.boolean true) push) env (.ok 0) after ∧
      ∃ x p s₁ s₂ last, Operands "a" (.boolean true) push env x p s₁ 0 s₂ ∧ s₂.array? "a" = some last ∧
        p < last.size) ∧
    (Operands "a" (.boolean true) pop env 1 1 env 1 (Env.empty.bindArray "a" #[0]) ∧
      Evaluates (.store "a" (.boolean true) pop) env (.error .outOfBounds) (Env.empty.bindArray "a" #[0])) := by
  intro env push pop
  have hplace : Elements.position 1 (#[0, 1] : Elements).size = .ok 1 := by decide +kernel
  have hplace' : Elements.position 1 (#[0, 1, 1] : Elements).size = .ok 1 := by decide +kernel
  have hpush : Operands "a" (.boolean true) push env 1 1 env 0 (Env.empty.bindArray "a" #[0, 1, 1]) :=
    ⟨rfl, ⟨1, rfl⟩, ⟨_, rfl, hplace⟩, ⟨2, rfl⟩⟩
  have hpop : Operands "a" (.boolean true) pop env 1 1 env 1 (Env.empty.bindArray "a" #[0]) :=
    ⟨rfl, ⟨1, rfl⟩, ⟨_, rfl, hplace⟩, ⟨2, rfl⟩⟩
  constructor
  · obtain ⟨last, hlast, -, hfits⟩ := (store_then_lookup _ _ _ _).2 _ _ _ _ _ hpush
    cases hlast
    obtain ⟨after, hafter⟩ := hfits hplace'
    obtain ⟨x, p, s₁, s₂, first, last, hoperands, -, -, hlast, hlt, -⟩ :=
      (store_then_lookup _ _ _ _).1 _ _ hafter
    exact ⟨after, hafter, x, p, s₁, s₂, last, hoperands, hlast, hlt⟩
  · obtain ⟨last, hlast, hrefused, -⟩ := (store_then_lookup _ _ _ _).2 _ _ _ _ _ hpop
    cases hlast
    exact ⟨hpop, hrefused (by decide)⟩

end Eval
end Abacus
