import Abacus.Proofs.Eval.Contracts
import Abacus.Proofs.Eval.Storing
import Abacus.Proofs.Term.Shape

/-!
# `Eval.ArrayWrites` — arrays change where the program says so

Arrays are global, and a name can be written to from any body. But the text of a program names every array that a run
can write: only an assignment, a store, `push` and `pop` bind an array, and each has the name in front of it. `len`
binds the array it is given to the same elements.

So there are three kinds of terms for each name. Those that **rebind** it can give the array any length, those that
**store** in it leave the length alone, and the others leave the array alone (`bindArray_of_move`). What is known of
the terms of a program is known of its runs (`arrayContract`).

## Contents
- `Term.Rebinds`, `Term.StoresIn`, `Env.InProgram` — which arrays a program names;
- `bindArray_of_move` — what a move can bind;
- `Harmless`, `arrayContract` — terms that do not touch what is seen of an array;
- `eval_writes_named_arrays` — arrays that are not named, or only stored in.
-/

namespace Abacus

open Term (Within Everywhere)

/-! ## The arrays that a program names -/

/-- The term can bind the array `name` to elements of another number: it assigns to the name, or calls `push` or `pop`
on it. -/
def Term.Rebinds (name : String) : Term → Prop
  | .assign target _ => target = name
  | .call function (.var first :: _) => (function = "push" ∨ function = "pop") ∧ first = name
  | _ => False

/-- The term writes to an element of the array `name`. -/
def Term.StoresIn (name : String) : Term → Prop
  | .store target _ _ => target = name
  | _ => False

/-- The term `t` stands in the program: in the given term, or in the body of a registered function. -/
def Env.InProgram (env : Env) (term t : Term) : Prop :=
  Within t term ∨ ∃ function frame, env.functions.get? function = some frame ∧ Within t frame.definition.body

/-! ## What a move can bind -/

namespace Env

theorem array?_setScalar (env : Env) (name other : String) (value : Float) :
    (env.setScalar name value).array? other = env.array? other := by
  unfold setScalar
  split <;> rfl

theorem array?_define (env : Env) (d : Definition) (name : String) : (env.define d).array? name = env.array? name := by
  unfold define
  split <;> rfl

end Env

namespace Builtin

theorem name_of_ofName? {name : String} {builtin : Builtin} (h : ofName? name = some builtin) :
    builtin.name = name := by
  have hfound := List.find?_some h
  exact of_decide_eq_true hfound

end Builtin

namespace Eval

variable {α β : Type}

/-- A builtin gives back the elements it is given, or is `push` or `pop`. -/
theorem elements_of_apply {builtin : Builtin} {function : String} (hname : Builtin.ofName? function = some builtin)
    {elements : Elements} {values : List Float} {result : Float × Elements}
    (h : builtin.apply elements values = .ok result) :
    (function = "push" ∨ function = "pop") ∨ result.2 = elements := by
  have hfunction := Builtin.name_of_ofName? hname
  cases builtin with
  | len =>
      cases h
      exact .inr rfl
  | push => exact .inl (.inl hfunction.symm)
  | pop => exact .inl (.inr hfunction.symm)

section Binding

variable {begun last : Env} {values more : List Float} {name : String} {elements : Elements} {value : Float}

/-- A calculation binds nothing if what is done with its value does not. -/
theorem ofResult_ne_bindArray {next : α → Move} {result : Except RuntimeError α}
    (hnext : ∀ a, next a ≠ .bindArray name elements value) :
    Move.ofResult next result ≠ .bindArray name elements value := by
  cases result with
  | ok a => exact hnext a
  | error e => nofun

/-- Reading binds nothing. -/
theorem elementMove_ne_bindArray (old : Elements) (i : Nat) : elementMove old i ≠ .bindArray name elements value := by
  unfold elementMove
  split <;> nofun

theorem bindArray_of_storeMove {target : String} {index : Float}
    (h : storeMove begun last target index more = .bindArray name elements value) :
    target = name ∧ ∃ old, last.array? name = some old ∧ elements.size = old.size := by
  unfold storeMove at h
  split at h
  · split at h
    · exact absurd h (ofResult_ne_bindArray fun _ => nofun)
    · cases h
    · next result _ old hold =>
      cases hposition : Elements.position index old.size with
      | error e =>
          rw [hposition] at h
          cases h
      | ok i =>
          rw [hposition, Move.ofResult, replaceMove] at h
          split at h
          · cases h
            exact ⟨rfl, old, hold, Array.size_set _⟩
          · cases h
  · cases h

theorem bindArray_of_builtinMove {function : String} {builtin : Builtin}
    (hname : Builtin.ofName? function = some builtin) {args : List Term}
    (h : builtinMove begun last values builtin args = .bindArray name elements value) :
    (Term.call function args).Rebinds name ∨ last.array? name = some elements := by
  unfold builtinMove at h
  split at h
  · split at h
    · next array rest =>
      split at h
      · next old _ hold =>
        cases happly : builtin.apply old values with
        | error e =>
            rw [happly] at h
            cases h
        | ok result =>
            rw [happly] at h
            cases h
            rcases elements_of_apply hname happly with hfunction | hsame
            · exact .inl ⟨hfunction, rfl⟩
            · rw [hsame]
              exact .inr hold
      · cases h
    · cases h
    · cases h
  · cases h

/-- **What a move can bind**: a term that rebinds a name anything, and one that stores in it as many elements as there
were. Any other term binds the elements that are there already. -/
theorem bindArray_of_move {term : Term} (h : move begun last values more term = .bindArray name elements value) :
    term.Rebinds name ∨
      ∃ old, last.array? name = some old ∧ elements.size = old.size ∧ (term.StoresIn name ∨ elements = old) := by
  cases term with
  | assign target assigned =>
      refine .inl ?_
      by_cases harray : ∃ items, assigned = .array items
      · obtain ⟨items, rfl⟩ := harray
        cases h
        rfl
      · rw [move_assign fun items heq => harray ⟨items, heq⟩] at h
        split at h <;> cases h
        rfl
  | store target index stored =>
      obtain ⟨htarget, old, hold, hsize⟩ := bindArray_of_storeMove h
      exact .inr ⟨old, hold, hsize, .inl htarget⟩
  | call function args =>
      simp only [move, callMove] at h
      split at h
      · split at h <;> cases h
      · next builtin _ hname =>
        rcases bindArray_of_builtinMove hname h with hrebinds | hsame
        · exact .inl hrebinds
        · exact .inr ⟨elements, hsame, rfl, .inr rfl⟩
      · cases h
  | var x =>
      simp only [move, readMove] at h
      split at h
      · cases h
      · split at h <;> cases h
  | lookup x index =>
      simp only [move, lookupMove] at h
      split at h
      · exact absurd h (ofResult_ne_bindArray (elementMove_ne_bindArray _))
      · split at h
        · exact absurd h (ofResult_ne_bindArray (elementMove_ne_bindArray _))
        · cases h
  | binary op left right => exact absurd h (ofResult_ne_bindArray fun _ => Move.noConfusion)
  | print x =>
      rw [move_print] at h
      split at h <;> cases h
  | _ => cases h

end Binding

/-! ## Runs -/

/-- The move of the term changes nothing about the array `name` that can be seen in the given view. -/
def Harmless (name : String) (view : Option Elements → β) (t : Term) : Prop :=
  ∀ begun last values more elements value, move begun last values more t = .bindArray name elements value →
    view (some elements) = view (last.array? name)

/-- The contract of an array: harmless terms leave it alone. -/
def arrayContract (name : String) (view : Option Elements → β) : Contract where
  allows := Everywhere (Harmless name view)
  part h hp := h.part hp
  rel before _ after := view (after.array? name) = view (before.array? name)
  refl _ := rfl
  trans h h' := h'.trans h
  enter _ _ _ := rfl
  leave h := h
  move {term begun last after values more r} hterm hmakes := by
    generalize hmove : Eval.move begun last values more term = m at hmakes
    cases hmakes with
    | setScalar target value => rw [Env.array?_setScalar]
    | bindArray target elements value =>
        by_cases htarget : name = target
        · subst htarget
          rw [Env.array?_bindArray_self]
          exact hterm.here begun last values more elements value hmove
        · rw [Env.array?_bindArray_of_ne last htarget]
    | define d => rw [Env.array?_define]
    | _ => rfl

/-! ## Programs -/

section Programs

variable {term : Term} {env after : Env} {r : Except RuntimeError Float} {name : String}

/-- A program of harmless terms leaves an array alone. -/
theorem view_array?_eq (view : Option Elements → β) (h : Evaluates term env r after)
    (hprogram : ∀ t, env.InProgram term t → Harmless name view t) :
    view (after.array? name) = view (env.array? name) := by
  obtain ⟨fuel, heval⟩ := h
  have hterm : term.Everywhere (Harmless name view) := fun t ht => hprogram t (.inl ht)
  have hbodies : env.BodiesHave (Everywhere (Harmless name view)) :=
    fun function frame hget t ht => hprogram t (.inr ⟨function, frame, hget, ht⟩)
  exact (eval_upholds (arrayContract name view) fuel hterm env hbodies heval).2

/-- **Arrays change only where the program says so.** Let an evaluation end, with a value or with a failure. An array
that is nowhere assigned to, stored in, pushed to or popped from is afterwards what it was, bound to the same elements
or not bound; and an array that is at most stored in has the length it had. -/
theorem eval_writes_named_arrays (h : Evaluates term env r after) (name : String) :
    ((∀ t, env.InProgram term t → ¬t.Rebinds name ∧ ¬t.StoresIn name) → after.array? name = env.array? name) ∧
    ((∀ t, env.InProgram term t → ¬t.Rebinds name) →
      (after.array? name).map Array.size = (env.array? name).map Array.size) := by
  constructor
  · intro hprogram
    refine view_array?_eq id h fun t ht begun last values more elements value hmove => ?_
    obtain ⟨hrebinds, hstores⟩ := hprogram t ht
    obtain ⟨old, hold, -, hsame⟩ := (bindArray_of_move hmove).resolve_left hrebinds
    rw [hsame.resolve_left hstores, hold]
  · intro hprogram
    refine view_array?_eq (Option.map Array.size) h fun t ht begun last values more elements value hmove => ?_
    obtain ⟨old, hold, hsize, -⟩ := (bindArray_of_move hmove).resolve_left (hprogram t ht)
    rw [hold, Option.map_some, Option.map_some, hsize]

end Programs

/-- The body of `f` stores in `a`. The statement binds `b` to the elements of `a`, calls `f`, pushes to `b` and fails at
an unknown name. Then `a` has other elements, but as many; and `c`, which is asked for its length, has those it had. -/
theorem eval_writes_named_arrays_call :
    let f : Definition := ⟨"f", [], .store "a" (.boolean true) (.boolean false)⟩
    let env := ((Env.empty.bindArray "a" #[0, 1]).bindArray "c" #[1]).register f
    let push : Term := .call "push" [.var "b", .call "len" [.var "c"]]
    let term : Term := .block [.assign "b" (.var "a"), .call "f" [], push, .var "y"]
    ∃ after, Evaluates term env (.error (.unknownIdentifier "y")) after ∧
      after.array? "a" = some #[0, 0] ∧ after.array? "b" = some #[0, 1, 1] ∧
      (after.array? "a").map Array.size = (env.array? "a").map Array.size ∧
      after.array? "c" = env.array? "c" := by
  intro f env push term
  have hrun : (eval 5 term env).map (fun x => (x.1, x.2.array? "a", x.2.array? "b")) =
      some (.error (.unknownIdentifier "y"), some #[0, 0], some #[0, 1, 1]) := by decide +kernel
  obtain ⟨⟨r, after⟩, heval, hfound⟩ := Option.map_eq_some_iff.mp hrun
  obtain ⟨rfl, ha, hb⟩ : r = _ ∧ after.array? "a" = _ ∧ after.array? "b" = _ := by simpa using hfound
  have hprogram : ∀ t, env.InProgram term t → ¬t.Rebinds "a" ∧ ¬t.Rebinds "c" ∧ ¬t.StoresIn "c" := by
    have hterm : term.Everywhere fun t => ¬t.Rebinds "a" ∧ ¬t.Rebinds "c" ∧ ¬t.StoresIn "c" := by
      simp [term, push, Term.everywhere_iff (n := .block _), Term.everywhere_iff (n := .assign _ _),
        Term.everywhere_iff (n := .call _ _), Term.everywhere_iff (n := .var _), Term.parts, Term.Rebinds,
        Term.StoresIn]
    have hbody : f.body.Everywhere fun t => ¬t.Rebinds "a" ∧ ¬t.Rebinds "c" ∧ ¬t.StoresIn "c" := by
      simp [f, Term.everywhere_iff (n := .store _ _ _), Term.everywhere_iff (n := .boolean _), Term.parts, Term.Rebinds,
        Term.StoresIn]
    have hbodies : env.BodiesHave (Everywhere fun t => ¬t.Rebinds "a" ∧ ¬t.Rebinds "c" ∧ ¬t.StoresIn "c") :=
      .register nofun hbody
    rintro t (ht | ⟨function, frame, hget, ht⟩)
    · exact hterm t ht
    · exact hbodies function frame hget t ht
  have hends : Evaluates term env (.error (.unknownIdentifier "y")) after := ⟨5, heval⟩
  exact ⟨after, hends, ha, hb,
    (eval_writes_named_arrays hends "a").2 fun t ht => (hprogram t ht).1,
    (eval_writes_named_arrays hends "c").1 fun t ht => (hprogram t ht).2⟩

end Eval
end Abacus
