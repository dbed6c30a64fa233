import Abacus.Proofs.Eval.Storing

/-!
# `Eval.FailedWrites` — an operation that fails has written nothing

Assignments, stores and calls first evaluate terms and only then write. So if one of them fails, the state is the one
that **the terms it has evaluated** have left behind, and the operation has added nothing of its own to it: no number
and no array is bound, no element is stored, appended or taken away, and no parameter is written. Only the body of a
called function comes after a write, that of its arguments.

An operation fails in one of two ways: a term it evaluates does, or it objects itself. What it can object to, and how
many of its terms have been evaluated by then, is said by `Objects`.

## Contents
- `InTurn` — terms one after the other, up to one that fails;
- `inputs` — the terms an operation evaluates;
- `Objects`, `FailsInBody` — failures of the operation itself, and of the body of a called function;
- `Stopped` — operations that have failed without a write.
-/

namespace Abacus

/-- Tells whether a term binds, stores or calls. -/
def Term.isOperation : Term → Bool
  | .assign _ _ | .store _ _ _ | .call _ _ => true
  | _ => false

namespace Eval

variable {α β : Type}

/-! ## Terms in turn -/

/-- The terms are evaluated from left to right. All of them have values, or the last one fails. -/
inductive InTurn : List Term → Env → Except RuntimeError (List Float) → Env → Prop where
  | done (env : Env) : InTurn [] env (.ok []) env
  | failed {term : Term} {env after : Env} {e : RuntimeError} :
      Evaluates term env (.error e) after → InTurn [term] env (.error e) after
  | next {term : Term} {terms : List Term} {env mid after : Env} {value : Float}
      {r : Except RuntimeError (List Float)} :
      Evaluates term env (.ok value) mid → InTurn terms mid r after →
      InTurn (term :: terms) env (r.map (value :: ·)) after

/-- A term has one result. -/
theorem Evaluates.unique {term : Term} {env after after' : Env} {r r' : Except RuntimeError Float}
    (h : Evaluates term env r after) (h' : Evaluates term env r' after') : r = r' ∧ after = after' := by
  obtain ⟨n, hn⟩ := h
  obtain ⟨m, hm⟩ := h'
  have hboth := (eval_mono (Nat.le_max_left n m) hn).symm.trans (eval_mono (Nat.le_max_right n m) hm)
  injection hboth with hpair
  injection hpair with hr hafter
  exact ⟨hr, hafter⟩

/-- Where all terms have values, the first of them has one, and then all others have. -/
theorem InTurn.cons_ok {term : Term} {terms : List Term} {env after : Env} {values : List Float}
    (h : InTurn (term :: terms) env (.ok values) after) :
    ∃ value mid rest, Evaluates term env (.ok value) mid ∧ InTurn terms mid (.ok rest) after := by
  generalize hr : Except.ok values = r at h
  cases h with
  | failed hterm => cases hr
  | @next _ _ _ _ _ _ r hterm hterms =>
      cases r with
      | error e => cases hr
      | ok rest => exact ⟨_, _, rest, hterm, hterms⟩

/-- Terms in turn leave bound what was bound. -/
theorem InTurn.keeps {terms : List Term} {env after : Env} {r : Except RuntimeError (List Float)}
    (h : InTurn terms env r after) : env.Keeps after := by
  induction h with
  | done env => exact .refl env
  | failed hterm => exact hterm.keeps
  | next hterm _ ih => exact hterm.keeps.trans ih

/-! ## What an operation evaluates, and what it objects to -/

/-- The terms an operation evaluates, from left to right. A builtin looks its array up by name. -/
def inputs (env : Env) : Term → List Term
  | .assign _ (.array elements) => elements
  | .assign _ value => [value]
  | .store _ index value => [index, value]
  | .call name args => if env.functions.contains name then args else args.tail
  | _ => []

/-- What the operation itself objects to when some of its terms have the given values: in the state `env` in which it
begins, or in the state `now` behind those terms. -/
inductive Objects (env : Env) : Term → List Float → Env → RuntimeError → Prop where
  /-- No array has the name. -/
  | notStored {name : String} {index value : Term} : env.arrays.contains name = false →
      Objects env (.store name index value) [] env (.notAnArray name)
  /-- The index does not fit. -/
  | misplaced {name : String} {index value : Term} {x : Float} {now : Env} {elements : Elements} {e : RuntimeError} :
      now.array? name = some elements → Elements.position x elements.size = .error e →
      Objects env (.store name index value) [x] now e
  /-- The index has fitted, and does not fit any more behind the value. -/
  | displaced {name : String} {index value : Term} {x r : Float} {p : Nat} {mid now : Env} {elements : Elements}
      {e : RuntimeError} :
      Operands name index value env x p mid r now → now.array? name = some elements →
      Elements.position x elements.size = .error e → Objects env (.store name index value) [x, r] now e
  | argumentCount {name : String} {args : List Term} {frame : Frame} :
      env.functions.get? name = some frame → args.length ≠ frame.definition.params.length →
      Objects env (.call name args) [] env (.argumentCount name frame.definition.params.length args.length)
  | unknownFunction {name : String} {args : List Term} : env.functions.contains name = false →
      Builtin.ofName? name = none → Objects env (.call name args) [] env (.unknownFunction name)
  | builtinCount {name : String} {args : List Term} {builtin : Builtin} : env.functions.contains name = false →
      Builtin.ofName? name = some builtin → args.length ≠ builtin.arity →
      Objects env (.call name args) [] env (.argumentCount builtin.name builtin.arity args.length)
  /-- The first argument is not the bare name of an array. -/
  | notAnArray {name : String} {first : Term} {rest : List Term} {builtin : Builtin} :
      env.functions.contains name = false → Builtin.ofName? name = some builtin →
      (first :: rest).length = builtin.arity →
      (∀ array, first = .var array → env.arrays.contains array = false) →
      Objects env (.call name (first :: rest)) [] env (.notAnArray first.render)
  /-- Nothing can be taken away from an empty array. -/
  | underflow {name array : String} : env.functions.contains name = false →
      Builtin.ofName? name = some .pop → env.array? array = some #[] →
      Objects env (.call name [.var array]) [] env .underflow

/-- A call of a registered function comes to the body of the function, and fails there. -/
inductive FailsInBody (env : Env) : Term → RuntimeError → Env → Prop where
  | body {name : String} {args : List Term} {frame : Frame} {values : List Float} {mid inner : Env}
      {e : RuntimeError} :
      env.functions.get? name = some frame → args.length = frame.definition.params.length →
      InTurn args env (.ok values) mid →
      Evaluates frame.definition.body
        { mid.enter name (frame.definition.params.zip values) with active := some name } (.error e) inner →
      FailsInBody env (.call name args) e { inner with active := mid.active }

theorem FailsInBody.arguments {env after : Env} {name : String} {args : List Term} {e : RuntimeError}
    (h : FailsInBody env (.call name args) e after) : ∃ values mid, InTurn args env (.ok values) mid := by
  cases h with
  | body _ _ hturn _ => exact ⟨_, _, hturn⟩

/-- The operation has failed with `e` and has written nothing: the state `after` is the one behind the first of its
terms, where the last of these has failed, or where the operation objects. -/
def Stopped (term : Term) (env : Env) (e : RuntimeError) (after : Env) : Prop :=
  ∃ front r, front <+: inputs env term ∧ InTurn front env r after ∧
    (r = .error e ∨ ∃ values, r = .ok values ∧ Objects env term values after e)

/-- An objection before anything is evaluated. -/
theorem Stopped.atOnce {term : Term} {env : Env} {e : RuntimeError} (h : Objects env term [] env e) :
    Stopped term env e env :=
  ⟨[], _, List.nil_prefix, .done env, .inr ⟨[], rfl, h⟩⟩

/-! ## Failing sequences -/

theorem bind_eq_error {x : Eval α} {f : α → Eval β} {env after : Env} {e : RuntimeError}
    (h : (x >>= f) env = some (.error e, after)) :
    x env = some (.error e, after) ∨ ∃ a mid, x env = some (.ok a, mid) ∧ f a mid = some (.error e, after) := by
  rw [bind_apply] at h
  split at h
  · cases h
  · next a mid hx => exact .inr ⟨a, mid, hx, h⟩
  · next e' mid hx =>
    cases h
    exact .inl hx

theorem lift_eq_error {result : Except RuntimeError α} {f : α → Eval β} {env after : Env} {e : RuntimeError}
    (h : (lift result >>= f) env = some (.error e, after)) :
    (result = .error e ∧ after = env) ∨ ∃ a, result = .ok a ∧ f a env = some (.error e, after) := by
  rcases bind_eq_error h with hlift | ⟨a, mid, hlift, hf⟩
  · cases hlift
    exact .inl ⟨rfl, rfl⟩
  · cases hlift
    exact .inr ⟨a, rfl, hf⟩

/-- Several terms are evaluated up to the first that fails. -/
theorem each_inTurn {n : Nat} {terms : List Term} {env after : Env} {r : Except RuntimeError (List Float)}
    (h : each (eval n) terms env = some (r, after)) :
    ∃ front, front <+: terms ∧ InTurn front env r after ∧ ∀ values, r = .ok values → front = terms := by
  induction terms generalizing env after r with
  | nil =>
      cases h
      exact ⟨[], List.nil_prefix, .done _, fun _ _ => rfl⟩
  | cons term rest ih =>
      unfold each at h
      rw [bind_apply] at h
      split at h
      · cases h
      · next value mid hterm =>
        rw [bind_apply] at h
        split at h
        · cases h
        · next values last hrest =>
          obtain ⟨front, -, hturn, hall⟩ := ih hrest
          obtain rfl := hall values rfl
          cases h
          exact ⟨term :: front, List.prefix_rfl, .next ⟨n, hterm⟩ hturn, fun _ _ => rfl⟩
        · next e last hrest =>
          obtain ⟨front, hfront, hturn, -⟩ := ih hrest
          cases h
          exact ⟨term :: front, List.cons_prefix_cons.mpr ⟨rfl, hfront⟩, .next ⟨n, hterm⟩ hturn, nofun⟩
      · next e mid hterm =>
        cases h
        exact ⟨[term], by simp, .failed ⟨n, hterm⟩, nofun⟩

/-- A term that fails among several. -/
theorem Stopped.of_each {n : Nat} {term : Term} {env after : Env} {e : RuntimeError}
    (h : each (eval n) (inputs env term) env = some (.error e, after)) : Stopped term env e after := by
  obtain ⟨front, hfront, hturn, -⟩ := each_inTurn h
  exact ⟨front, _, hfront, hturn, .inl rfl⟩

/-! ## The operations -/

section Operations

variable {n : Nat} {env after : Env} {e : RuntimeError} {name : String}

theorem inputs_assign {value : Term} (h : ∀ elements, value ≠ .array elements) :
    inputs env (.assign name value) = [value] := by
  cases value with
  | array elements => exact absurd rfl (h elements)
  | _ => rfl

theorem assign_stopped {value : Term} (h : assign (eval n) name value env = some (.error e, after)) :
    Stopped (.assign name value) env e after := by
  unfold assign at h
  split at h
  · next elements =>
    -- binding the elements cannot fail
    rcases bind_eq_error h with heach | ⟨values, mid, -, hbind⟩
    · exact .of_each heach
    · cases hbind
  · next _ hnot =>
    rw [env_bind] at h
    cases hnamed : namedArray? env value with
    | some elements =>
        rw [hnamed] at h
        cases h
    | none =>
        rw [hnamed] at h
        rcases bind_eq_error h with hvalue | ⟨result, mid, -, hset⟩
        · refine ⟨[value], _, ?_, .failed ⟨n, hvalue⟩, .inl rfl⟩
          rw [inputs_assign hnot]
        · cases hset

/-- What cannot be written has no place, and nothing is written. -/
theorem position_of_writeElement_error {beyond : Eval Float} {elements : Elements} {x value : Float}
    (h : writeElement beyond name elements x value env = some (.error e, after)) :
    Elements.position x elements.size = .error e ∧ after = env := by
  cases hposition : Elements.position x elements.size with
  | error e' =>
      rw [writeElement_of_refused beyond name value hposition] at h
      cases h
      exact ⟨rfl, rfl⟩
  | ok q =>
      rw [writeElement_of_position beyond name value hposition (Elements.lt_of_position hposition)] at h
      cases h

/-- A store fails in its index, in its value, or because the index does not fit behind one of them. -/
theorem store_stopped {index value : Term} (h : store .failing (eval n) name index value env = some (.error e, after)) :
    Stopped (.store name index value) env e after := by
  unfold store at h
  rw [env_bind] at h
  split at h
  · next hbound =>
    cases h
    exact .atOnce (.notStored (by simpa using hbound))
  · next hbound =>
    have hbound : env.arrays.contains name = true := by simpa using hbound
    rcases bind_eq_error h with hindex | ⟨x, s₁, hindex, h⟩
    · exact ⟨[index], _, by simp [inputs], .failed ⟨n, hindex⟩, .inl rfl⟩
    · have hindex : Evaluates index env (.ok x) s₁ := ⟨n, hindex⟩
      obtain ⟨first, hfirst⟩ := Table.contains_iff.mp (hindex.keeps.arrays name hbound)
      have hfirst : s₁.array? name = some first := hfirst
      rw [env_bind, hfirst] at h
      rcases lift_eq_error h with ⟨hplace, rfl⟩ | ⟨p, hplace, h⟩
      · exact ⟨[index], _, by simp [inputs], .next hindex (.done _), .inr ⟨[x], rfl, .misplaced hfirst hplace⟩⟩
      · rcases bind_eq_error h with hvalue | ⟨result, s₂, hvalue, h⟩
        · exact ⟨[index, value], _, List.prefix_rfl, .next hindex (.failed ⟨n, hvalue⟩), .inl rfl⟩
        · have hvalue : Evaluates value s₁ (.ok result) s₂ := ⟨n, hvalue⟩
          have hoperands : Operands name index value env x p s₁ result s₂ :=
            ⟨hbound, hindex, ⟨first, hfirst, hplace⟩, hvalue⟩
          obtain ⟨last, hlast⟩ := hoperands.array
          rw [env_bind, hlast] at h
          obtain ⟨hplace, rfl⟩ := position_of_writeElement_error h
          exact ⟨[index, value], _, List.prefix_rfl, .next hindex (.next hvalue (.done _)),
            .inr ⟨[x, result], rfl, .displaced hoperands hlast hplace⟩⟩

/-- A call of a registered function objects to the number of arguments, fails in one of them, or fails in the body. -/
theorem callUser_stopped {args : List Term} (hname : env.functions.contains name = true)
    (h : callUser .failing (eval n) name args env = some (.error e, after)) :
    FailsInBody env (.call name args) e after ∨ Stopped (.call name args) env e after := by
  obtain ⟨frame, hget⟩ := Table.contains_iff.mp hname
  have hinputs : inputs env (.call name args) = args := if_pos hname
  unfold callUser at h
  rw [env_bind, hget] at h
  dsimp only at h
  split at h
  · next hcount =>
    cases h
    exact .inr (.atOnce (.argumentCount hget hcount))
  · next hcount =>
    rcases bind_eq_error h with heach | ⟨values, mid, heach, hcall⟩
    · rw [← hinputs] at heach
      exact .inr (.of_each heach)
    · obtain ⟨front, -, hturn, hall⟩ := each_inTurn heach
      rw [hall values rfl] at hturn
      -- the arguments are written, and only then does the body begin
      change inCall name _ (mid.enter name _) = _ at hcall
      unfold inCall at hcall
      split at hcall
      · cases hcall
      · next r inner hbody =>
        cases hcall
        have hfails : FailsInBody env (.call name args) e { inner with active := mid.active } :=
          .body hget (not_not.mp hcount) hturn ⟨n, hbody⟩
        exact .inl hfails

/-- A builtin fails on an array that is not empty only if one of its other arguments does. -/
theorem apply_eq_error {builtin : Builtin} {elements : Elements} {args : List Float}
    (h : builtin.apply elements args = .error e) : builtin = .pop ∧ elements = #[] ∧ e = .underflow := by
  cases builtin with
  | len => cases h
  | push => cases h
  | pop =>
      unfold Builtin.apply at h
      cases hback : elements.back? with
      | some last =>
          rw [hback] at h
          cases h
      | none =>
          rw [hback] at h
          cases h
          exact ⟨rfl, by simpa using hback, rfl⟩

/-- A builtin objects, or one of its arguments behind the array fails. -/
theorem callBuiltin_stopped {builtin : Builtin} {args : List Term} (hname : env.functions.contains name = false)
    (hbuiltin : Builtin.ofName? name = some builtin)
    (h : callBuiltin .failing (eval n) builtin args env = some (.error e, after)) :
    Stopped (.call name args) env e after := by
  have hinputs : inputs env (.call name args) = args.tail := if_neg (by simp [hname])
  unfold callBuiltin at h
  by_cases hcount : args.length = builtin.arity
  · rw [if_neg (not_not.mpr hcount)] at h
    split at h
    · next array rest =>
      rw [env_bind] at h
      split at h
      · next hunbound =>
        cases h
        have hnot : ∀ other, Term.var array = .var other → env.arrays.contains other = false := by
          intro other hother
          cases hother
          simpa using hunbound
        exact .atOnce (.notAnArray hname hbuiltin hcount hnot)
      · next hbound =>
        have hbound : env.arrays.contains array = true := by simpa using hbound
        rcases bind_eq_error h with heach | ⟨values, mid, heach, happlied⟩
        · rw [← show inputs env _ = rest from hinputs] at heach
          exact .of_each heach
        · obtain ⟨front, -, hturn, hall⟩ := each_inTurn heach
          obtain rfl := hall values rfl
          obtain ⟨elements, helements⟩ := Table.contains_iff.mp (hturn.keeps.arrays array hbound)
          have helements : mid.array? array = some elements := helements
          rw [env_bind, helements] at happlied
          rcases lift_eq_error happlied with ⟨happly, rfl⟩ | ⟨result, -, hbind⟩
          · obtain ⟨rfl, rfl, rfl⟩ := apply_eq_error happly
            -- there is no argument behind the array, so nothing has been evaluated
            obtain rfl : front = [] := List.eq_nil_of_length_eq_zero (Nat.succ.inj hcount)
            cases hturn
            exact .atOnce (.underflow hname hbuiltin helements)
          · cases hbind
    · next first rest hnot =>
      cases h
      exact .atOnce (.notAnArray hname hbuiltin hcount fun array harray => absurd harray (hnot array))
    · cases builtin <;> cases hcount
  · rw [if_pos hcount] at h
    cases h
    exact .atOnce (.builtinCount hname hbuiltin hcount)

theorem call_stopped {args : List Term} (h : call .failing (eval n) name args env = some (.error e, after)) :
    FailsInBody env (.call name args) e after ∨ Stopped (.call name args) env e after := by
  unfold call at h
  rw [env_bind] at h
  split at h
  · next hname => exact callUser_stopped hname h
  · next hname =>
    have hname : env.functions.contains name = false := by simpa using hname
    cases hbuiltin : Builtin.ofName? name with
    | some builtin =>
        rw [hbuiltin] at h
        exact .inr (callBuiltin_stopped hname hbuiltin h)
    | none =>
        rw [hbuiltin] at h
        cases h
        exact .inr (.atOnce (.unknownFunction hname hbuiltin))

/-- A call of a name that no function is registered under is one of the builtin. -/
theorem eval_call_builtin {builtin : Builtin} (hname : env.functions.contains name = false)
    (hbuiltin : Builtin.ofName? name = some builtin) (args : List Term) :
    eval (n + 1) (.call name args) env = callBuiltin .failing (eval n) builtin args env := by
  show call .failing (eval n) name args env = _
  unfold call
  rw [env_bind, hname, hbuiltin]
  rfl

end Operations

/-- An operation that objects before it has evaluated a term needs no fuel for terms. -/
theorem eval_of_objects {term : Term} {env : Env} {e : RuntimeError} (h : Objects env term [] env e) :
    eval 1 term env = some (.error e, env) := by
  cases h with
  | notStored hname =>
      show store .failing (eval 0) _ _ _ env = _
      unfold store
      rw [env_bind, hname]
      rfl
  | argumentCount hget hcount =>
      show call .failing (eval 0) _ _ env = _
      unfold call callUser
      rw [env_bind, if_pos (Table.contains_iff.mpr ⟨_, hget⟩), env_bind, hget]
      dsimp only
      rw [if_pos hcount]
      rfl
  | unknownFunction hname hbuiltin =>
      show call .failing (eval 0) _ _ env = _
      unfold call
      rw [env_bind, hname, hbuiltin]
      rfl
  | builtinCount hname hbuiltin hcount =>
      rw [eval_call_builtin hname hbuiltin]
      unfold callBuiltin
      rw [if_pos hcount]
      rfl
  | @notAnArray _ first _ _ hname hbuiltin hcount hnot =>
      rw [eval_call_builtin hname hbuiltin]
      unfold callBuiltin
      rw [if_neg (not_not.mpr hcount)]
      cases first with
      | var array =>
          dsimp only
          rw [env_bind, hnot array rfl]
          rfl
      | _ => rfl
  | underflow hname hbuiltin hempty =>
      rw [eval_call_builtin hname hbuiltin]
      unfold callBuiltin
      rw [if_neg (by simp [Builtin.arity])]
      dsimp only
      rw [env_bind, Table.contains_iff.mpr ⟨_, hempty⟩, if_neg (by decide)]
      rw [bind_of_ok (show each (eval 0) [] env = some (.ok [], env) from rfl), env_bind, hempty]
      rfl

/-- An operation that fails outside of the body of a called function has written nothing. -/
theorem stopped_of_error {term : Term} (hop : term.isOperation = true) {env after : Env} {e : RuntimeError}
    (h : Evaluates term env (.error e) after) : FailsInBody env term e after ∨ Stopped term env e after := by
  obtain ⟨_ | n, heval⟩ := h
  · cases heval
  · cases term with
    | assign name value => exact .inr (assign_stopped heval)
    | store name index value => exact .inr (store_stopped heval)
    | call name args => exact call_stopped heval
    | _ => cases hop

/-- **A failing operation writes nothing.** Let an assignment, a store or a call fail, and not in the body of the called
function. Then the state is the one behind the first of the terms that the operation evaluates: up to one that fails,
or up to where the operation objects.

An objection made before any term is evaluated leaves the state as it is, whatever the terms are: to an unknown
function, to a number of arguments, to what is not an array, to an empty array. -/
theorem failing_operation_writes_nothing {term : Term} (hop : term.isOperation = true) (env : Env) :
    (∀ e after, Evaluates term env (.error e) after → ¬FailsInBody env term e after → Stopped term env e after) ∧
    ∀ e, Objects env term [] env e →
      eval 1 term env = some (.error e, env) ∧
        ∀ r after, Evaluates term env r after → r = .error e ∧ after = env := by
  constructor
  · intro e after h hbody
    exact (stopped_of_error hop h).resolve_left hbody
  · intro e h
    have heval := eval_of_objects h
    exact ⟨heval, fun r after h' => h'.unique ⟨1, heval⟩⟩

/-- In `f(f(true, true), y)` the name `y` is unknown: the inner call has written its arguments, and the outer one has
not. The call `f(a = true)` has too few arguments, and `a` is not bound. -/
theorem failing_operation_writes_nothing_arguments :
    let f : Definition := ⟨"f", ["a", "b"], .var "a"⟩
    let env := Env.empty.register f
    let inner : Term := .call "f" [.boolean true, .boolean true]
    let after := env.enter "f" [("a", 1), ("b", 1)]
    (Evaluates (.call "f" [inner, .var "y"]) env (.error (.unknownIdentifier "y")) after ∧
      Stopped (.call "f" [inner, .var "y"]) env (.unknownIdentifier "y") after) ∧
    eval 1 (.call "f" [.assign "a" (.boolean true)]) env = some (.error (.argumentCount "f" 2 1), env) := by
  intro f env inner after
  have hinner : Evaluates inner env (.ok 1) after := ⟨3, rfl⟩
  have hy : Evaluates (.var "y") after (.error (.unknownIdentifier "y")) after := ⟨1, rfl⟩
  have houter : Evaluates (.call "f" [inner, .var "y"]) env (.error (.unknownIdentifier "y")) after := ⟨4, rfl⟩
  have hbody : ¬FailsInBody env (.call "f" [inner, .var "y"]) (.unknownIdentifier "y") after := by
    intro h
    -- both arguments would have values
    obtain ⟨_, _, hturn⟩ := h.arguments
    obtain ⟨_, mid, _, hinner', hturn⟩ := hturn.cons_ok
    obtain ⟨_, _, _, hy', -⟩ := hturn.cons_ok
    obtain ⟨-, rfl⟩ := hinner.unique hinner'
    cases (hy.unique hy').1
  refine ⟨⟨houter, (failing_operation_writes_nothing rfl env).1 _ _ houter hbody⟩, ?_⟩
  have hcount : Objects env (.call "f" [.assign "a" (.boolean true)]) [] env (.argumentCount "f" 2 1) :=
    @Objects.argumentCount env "f" _ ⟨f, ∅, false⟩ rfl (by decide)
  exact ((failing_operation_writes_nothing rfl env).2 _ hcount).1

end Eval
end Abacus
