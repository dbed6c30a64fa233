import Abacus.Proofs.Eval.Following

/-!
# `Eval.Moves` — what a term does itself

Whatever a term is, its evaluation has three parts. First some of the terms inside it are evaluated, from left to
right (`opening`). Their values decide what is evaluated next, if anything: a branch, the value of a store, or the body
of a called function in the scope of that function (`sequel`). Then the term makes **one move of its own** (`move`): it
gives a value, fails, binds something, or prints a line.

So what is to be shown of all terms can be shown of lists of terms and of six kinds of moves. Loops are left out: they
repeat two terms and do nothing else.

## Contents
- `Move` — the kinds of moves;
- `opening`, `Sequel`, `sequel` — what is evaluated first and next;
- `move` — the move of a term;
- `inOrder`, `step_eq_inOrder` — the three parts, and that they are all there is;
- `movesPlainly`, `isPlain_move` — which terms print, define, or complain about an operator;
- `exposed_of_opening`, `sequel_cases` — which terms are evaluated.
-/

namespace Abacus
namespace Eval

variable {α β : Type}

/-! ## Moves -/

/-- What a term does itself, when the terms inside it have been evaluated. -/
inductive Move where
  | give (value : Float)
  | fail (error : RuntimeError)
  /-- Binds a number and gives it. -/
  | setScalar (name : String) (value : Float)
  | bindArray (name : String) (elements : Elements) (value : Float)
  | define (definition : Definition)
  | print (line : String) (value : Float)

namespace Move

/-- Makes the move. -/
def run : Move → Eval Float
  | give value => return value
  | fail error => Eval.fail error
  | setScalar name value => do
    update (·.setScalar name value)
    return value
  | bindArray name elements value => do
    update (·.bindArray name elements)
    return value
  | define definition => do
    update (·.define definition)
    return 0
  | print line value => do
    write line
    return value

/-- The move that a calculation leads to, which may fail. -/
def ofResult (next : α → Move) : Except RuntimeError α → Move
  | .ok a => next a
  | .error error => fail error

/-- A calculation that fails is a move that fails, so it may be run in front of the move. -/
theorem run_ofResult (next : α → Move) (result : Except RuntimeError α) :
    (ofResult next result).run = lift result >>= fun a => (next a).run := by
  cases result <;> rfl

/-- Giving the value of a calculation is the calculation. -/
theorem run_ofResult_give (result : Except RuntimeError Float) : (ofResult give result).run = lift result := by
  cases result <;> rfl

/-- Tells whether a move neither prints, nor defines, nor complains about an operator. -/
def isPlain : Move → Bool
  | print _ _ | define _ | fail (.invalidOperator _) => false
  | _ => true

/-- The move behind a calculation is plain if what is done with its value is, and if it complains about no operator.
-/
theorem isPlain_ofResult {next : α → Move} {result : Except RuntimeError α}
    (hnext : ∀ a, (next a).isPlain = true) (herror : ∀ op, result ≠ .error (.invalidOperator op)) :
    (ofResult next result).isPlain = true := by
  cases result with
  | ok a => exact hnext a
  | error e =>
      cases e with
      | invalidOperator op => exact absurd rfl (herror op)
      | _ => rfl

end Move

/-! ## What is evaluated first -/

/-- The arguments that a call evaluates: none if it objects at once, and of a builtin all but the array. -/
def arguments (env : Env) (name : String) (args : List Term) : List Term :=
  match env.functions.get? name with
  | some frame => if args.length = frame.definition.params.length then args else []
  | none =>
    match Builtin.ofName? name, args with
    | some builtin, .var array :: rest =>
      if rest.length + 1 = builtin.arity ∧ env.arrays.contains array = true then rest else []
    | _, _ => []

/-- The terms that are evaluated first, from left to right. -/
def opening (env : Env) : Term → List Term
  | .number _ | .boolean _ | .var _ | .define _ _ _ => []
  | .assign _ (.array elements) => elements
  | .assign _ value => if (namedArray? env value).isSome then [] else [value]
  | .binary _ left right => [left, right]
  | .block statements => statements
  | .braced body => [body]
  | .ifElse condition _ _ => [condition]
  | .elseClause (some nested) _ => [nested]
  | .elseClause none inside => inside.toList
  | .whileLoop condition _ => [condition]
  | .print value => if (namedArray? env value).isSome then [] else [value]
  | .giveBack value => value.toList
  | .call name args => arguments env name args
  | .array elements => elements
  | .lookup _ index => [index]
  | .store name index _ => if env.arrays.contains name then [index] else []

/-! ## What is evaluated next -/

/-- Terms that are evaluated next, in the scope at hand or as the body of a call. -/
structure Sequel where
  terms : List Term
  /-- The called function, and what its parameters are bound to. -/
  call : Option (String × List (String × Float))

namespace Sequel

/-- Nothing is evaluated next. -/
def none : Sequel := ⟨[], .none⟩

/-- Evaluates the terms. -/
def run (eval : Term → Eval Float) (sequel : Sequel) : Eval (List Float) :=
  match sequel.call with
  | .none => each eval sequel.terms
  | .some (function, bindings) => do
    update (·.enter function bindings)
    inCall function (each eval sequel.terms)

end Sequel

/-- What is evaluated next, when the first terms have the given `values`. The evaluation began in the state `begun`,
and the state is `now`. -/
def sequel (begun now : Env) (values : List Float) : Term → Sequel
  | .ifElse _ body otherwise =>
    if Number.isTruthy (values.getLastD 0) then ⟨[body], none⟩ else ⟨otherwise.toList, none⟩
  | .call name args =>
    match begun.functions.get? name with
    | some frame =>
      if args.length = frame.definition.params.length then
        ⟨[frame.definition.body], some (name, frame.definition.params.zip values)⟩
      else .none
    | none => .none
  | .store name _ value =>
    if begun.arrays.contains name then
      match Elements.position (values.getLastD 0) ((now.array? name).getD #[]).size with
      | .ok _ => ⟨[value], none⟩
      | .error _ => .none
    else .none
  | _ => .none

/-! ## The move of a term -/

/-- Reading a name. -/
def readMove (last : Env) (name : String) : Move :=
  match last.scalar? name with
  | some value => .give value
  | none =>
    if name = nullName || last.functions.contains name then .give 0 else .fail (.unknownIdentifier name)

/-- Reading the element at a place. -/
def elementMove (elements : Elements) (i : Nat) : Move :=
  if h : i < elements.size then .give elements[i] else .fail .outOfBounds

/-- Writing the element at a place of the named array. -/
def replaceMove (name : String) (elements : Elements) (value : Float) (i : Nat) : Move :=
  if h : i < elements.size then .bindArray name (elements.set i value) value else .fail .outOfBounds

/-- Reading an element. -/
def lookupMove (last : Env) (name : String) (index : Float) : Move :=
  match last.array? name with
  | some elements => .ofResult (elementMove elements) (Elements.position index elements.size)
  | none =>
    match last.scalar? name with
    | some value => .ofResult (elementMove #[value]) (Elements.position index 1)
    | none => .fail (.notAnArray name)

/-- Writing an element. There is a value in `more` if the index was found to fit. -/
def storeMove (begun last : Env) (name : String) (index : Float) (more : List Float) : Move :=
  if begun.arrays.contains name then
    match more, last.array? name with
    | [], elements? => .ofResult (fun _ => .give 0) (Elements.position index (elements?.getD #[]).size)
    | _ :: _, none => .fail (.notAnArray name)
    | value :: _, some elements =>
      .ofResult (replaceMove name elements value) (Elements.position index elements.size)
  else .fail (.notAnArray name)

/-- Calling a builtin, with the values of all arguments but the array. -/
def builtinMove (begun last : Env) (values : List Float) (builtin : Builtin) (args : List Term) : Move :=
  if args.length = builtin.arity then
    match args with
    | .var name :: _ =>
      match begun.arrays.contains name, last.array? name with
      | true, some elements =>
        .ofResult (fun result => .bindArray name result.2 result.1) (builtin.apply elements values)
      | _, _ => .fail (.notAnArray name)
    | term :: _ => .fail (.notAnArray term.render)
    | [] => .fail (.argumentCount builtin.name builtin.arity 0)
  else .fail (.argumentCount builtin.name builtin.arity args.length)

/-- Calling a function. The value of its body is in `more` if it is a registered one. -/
def callMove (begun last : Env) (values more : List Float) (name : String) (args : List Term) : Move :=
  match begun.functions.get? name, Builtin.ofName? name with
  | some frame, _ =>
    if args.length = frame.definition.params.length then .give (more.getLastD 0)
    else .fail (.argumentCount name frame.definition.params.length args.length)
  | none, some builtin => builtinMove begun last values builtin args
  | none, none => .fail (.unknownFunction name)

/-- The move of a term in the state `last`, when the terms that are evaluated first have the given `values`, and those
that are evaluated next the values `more`. -/
def move (begun last : Env) (values more : List Float) : Term → Move
  | .number value => .give value
  | .boolean value => .give (Number.ofTruth value)
  | .var name => readMove last name
  | .assign name (.array _) => .bindArray name values.toArray 0
  | .assign name value =>
    match namedArray? begun value with
    | some elements => .bindArray name elements 0
    | none => .setScalar name (values.getLastD 0)
  | .binary op left right =>
    .ofResult .give (operate op left.isBoolean right.isBoolean (values.getD 0 0) (values.getD 1 0))
  | .block _ | .braced _ | .elseClause _ _ | .giveBack _ => .give (values.getLastD 0)
  | .ifElse _ _ _ | .whileLoop _ _ => .give (more.getLastD 0)
  | .print value =>
    match namedArray? begun value with
    | some elements => .print elements.text 0
    | none => .print (valueText value (values.getLastD 0)) (values.getLastD 0)
  | .define name params body => .define { name, params, body }
  | .call name args => callMove begun last values more name args
  | .array _ => .give 0
  | .lookup name _ => lookupMove last name (values.getLastD 0)
  | .store name _ _ => storeMove begun last name (values.getLastD 0) more

/-- The evaluation of a term, part by part. -/
def inOrder (eval : Term → Eval Float) (term : Term) : Eval Float := do
  let begun ← env
  let values ← each eval (opening begun term)
  let now ← env
  let more ← (sequel begun now values term).run eval
  let last ← env
  (move begun last values more term).run

/-! ## Sequences -/

instance : LawfulMonad Eval := by
  refine LawfulMonad.mk' Eval ?_ (fun _ _ => rfl) ?_
  · intro α x
    funext env
    show (x >>= fun a => pure a) env = x env
    rw [bind_apply]
    rcases x env with _ | ⟨_ | _, _⟩ <;> rfl
  · intro α β γ x f g
    funext env
    rw [bind_apply, bind_apply, bind_apply]
    rcases x env with _ | ⟨_ | _, _⟩ <;> rfl

section Order

variable {ev : Term → Eval Float}

theorem each_one (t : Term) (f : List Float → Eval α) : each ev [t] >>= f = ev t >>= fun v => f [v] := by
  simp [each]

/-- Two terms are evaluated one behind the other; the second one is not reached if the first one fails. -/
theorem each_two (t u : Term) (f : List Float → Eval α) :
    each ev [t, u] >>= f = ev t >>= fun v => ev u >>= fun w => f [v, w] := by
  simp [each]

/-- A term that may be missing is a list of at most one term, with the value `0` if it is empty. -/
theorem optional_eq_each (t : Option Term) :
    optional ev t = each ev t.toList >>= fun values => pure (values.getLastD 0) := by
  cases t with
  | none => rfl
  | some t =>
      show ev t = each ev [t] >>= _
      rw [each_one]
      exact (bind_pure (ev t)).symm

/-- The value of a sequence is the last of the values, so a list of values says more. -/
theorem sequence_eq_each (terms : List Term) (last : Float) :
    sequence ev last terms = each ev terms >>= fun values => pure (values.getLastD last) := by
  induction terms generalizing last with
  | nil => rfl
  | cons t rest ih => simp only [sequence, each, ih, bind_assoc, pure_bind, List.getLastD_cons]

/-- A body is one term. The scope of the call is left before its value is used. -/
theorem inCall_one (function : String) (t : Term) (f : List Float → Eval α) :
    inCall function (each ev [t]) >>= f = inCall function (ev t) >>= fun v => f [v] := by
  have heach : each ev [t] = ev t >>= fun v => pure [v] := (bind_pure _).symm.trans (each_one t pure)
  rw [heach]
  funext s
  rw [bind_apply, bind_apply]
  unfold inCall
  rw [bind_apply]
  rcases ev t { s with active := some function } with _ | ⟨_ | _, _⟩ <;> rfl

/-! ## The parts are all there is -/

-- each of the three computes as soon as it is known which term it is about
attribute [local simp] opening sequel move

/-- Most terms evaluate nothing after the first terms. -/
theorem inOrder_of_none {term : Term} {s : Env} (h : ∀ now values, sequel s now values term = .none) :
    inOrder ev term s =
      (each ev (opening s term) >>= fun values => env >>= fun last => (move s last values [] term).run) s := by
  unfold inOrder
  rw [env_bind]
  simp only [h]
  rfl

/-- Reading a name evaluates nothing, so the move alone does it. -/
theorem readName_eq (name : String) (s : Env) : readName name s = (readMove s name).run s := by
  unfold readName readMove
  rw [env_bind]
  cases s.scalar? name with
  | some value => rfl
  | none =>
      dsimp only
      split <;> rfl

theorem opening_assign {value : Term} (h : ∀ elements, value ≠ .array elements) (name : String) (s : Env) :
    opening s (.assign name value) = if (namedArray? s value).isSome then [] else [value] := by
  cases value with
  | array elements => exact absurd rfl (h elements)
  | _ => rfl

/-- Unless an array is written out on the right, it depends on the state whether an array is bound. -/
theorem move_assign {value : Term} (h : ∀ elements, value ≠ .array elements) (name : String) (begun last : Env)
    (values more : List Float) :
    move begun last values more (.assign name value) = match namedArray? begun value with
      | some elements => .bindArray name elements 0
      | none => .setScalar name (values.getLastD 0) := by
  cases value with
  | array elements => exact absurd rfl (h elements)
  | _ => rfl

/-- The value comes first, and then it is bound. An array that is named is bound without being evaluated. -/
theorem assign_eq_inOrder (name : String) (value : Term) (s : Env) :
    assign ev name value s = inOrder ev (.assign name value) s := by
  rw [inOrder_of_none fun _ _ => rfl]
  unfold assign
  split
  · rfl
  · next hnot =>
    rw [env_bind, opening_assign hnot]
    simp only [move_assign hnot]
    cases namedArray? s value with
    | some elements => rfl
    | none =>
        rw [if_neg (by simp), each_one]
        rfl

/-- Both operands are evaluated, whatever the operator is. -/
theorem binary_eq_inOrder (op : Operator) (left right : Term) (s : Env) :
    binary ev op left right complain s = inOrder ev (.binary op left right) s := by
  rw [inOrder_of_none fun _ _ => rfl]
  simp only [opening, move]
  rw [each_two]
  refine congrFun (bind_congr fun x => bind_congr fun y => ?_) s
  rw [Move.run_ofResult_give]
  rfl

/-- The condition comes first. Which branch comes next depends on its value. -/
theorem branch_eq_inOrder (condition body : Term) (otherwise : Option Term) (s : Env) :
    (do if Number.isTruthy (← ev condition) then ev body else optional ev otherwise) s =
      inOrder ev (.ifElse condition body otherwise) s := by
  unfold inOrder
  rw [env_bind]
  simp only [opening, sequel, move]
  rw [each_one]
  refine congrFun (bind_congr fun x => ?_) s
  funext now
  rw [env_bind]
  simp only [List.getLastD_cons, List.getLastD_nil]
  split
  · simp only [Sequel.run]
    rw [each_one]
    exact congrFun (bind_pure (ev body)).symm now
  · rw [optional_eq_each]
    rfl

/-- A named array is printed as it is, and any other value behind its evaluation. -/
theorem print_eq_inOrder (value : Term) (s : Env) : print ev value s = inOrder ev (.print value) s := by
  rw [inOrder_of_none fun _ _ => rfl]
  unfold print
  rw [env_bind]
  simp only [opening, move]
  cases namedArray? s value with
  | some elements => rfl
  | none =>
      rw [if_neg (by simp), each_one]
      rfl

/-- The element is looked for behind the check of the index, which fails first if it fails. -/
theorem readElement_eq_move (elements : Elements) (index : Float) :
    readElement (fail .outOfBounds) elements index =
      (Move.ofResult (elementMove elements) (Elements.position index elements.size)).run := by
  rw [Move.run_ofResult]
  refine bind_congr fun i => ?_
  unfold elementMove
  split <;> rfl

/-- The same for writing: nothing is bound unless the index fits. -/
theorem writeElement_eq_move (name : String) (elements : Elements) (index value : Float) :
    writeElement (fail .outOfBounds) name elements index value =
      (Move.ofResult (replaceMove name elements value) (Elements.position index elements.size)).run := by
  rw [Move.run_ofResult]
  refine bind_congr fun i => ?_
  unfold replaceMove
  split <;> rfl

/-- The index comes first. The array is the one found behind it. -/
theorem lookup_eq_inOrder (name : String) (index : Term) (s : Env) :
    lookup .failing ev name index s = inOrder ev (.lookup name index) s := by
  rw [inOrder_of_none fun _ _ => rfl]
  simp only [opening, move]
  rw [each_one]
  refine congrFun (bind_congr fun x => bind_congr fun last => ?_) s
  rw [lookupMove]
  cases last.array? name with
  | some elements => exact readElement_eq_move elements x
  | none =>
      cases last.scalar? name with
      | some value => exact readElement_eq_move #[value] x
      | none => rfl

/-- The one term with two parts and a check between them: the value is evaluated if the index fits, and the array that
is written is the one found behind both. -/
theorem store_eq_inOrder (name : String) (index value : Term) (s : Env) :
    store .failing ev name index value s = inOrder ev (.store name index value) s := by
  unfold store inOrder
  rw [env_bind, env_bind]
  simp only [opening, sequel, move, storeMove]
  cases s.arrays.contains name with
  | false => rfl
  | true =>
      simp only [if_true, Bool.not_true, Bool.false_eq_true, if_false]
      rw [each_one]
      refine congrFun (bind_congr fun x => ?_) s
      funext now
      rw [env_bind, env_bind]
      simp only [List.getLastD_cons, List.getLastD_nil]
      cases hposition : Elements.position x ((now.array? name).getD #[]).size with
      | error e =>
          -- no value is evaluated, so the move finds the array that the index was refused for
          show some (.error e, now) =
            (Move.ofResult _ (Elements.position x ((now.array? name).getD #[]).size)).run now
          rw [hposition]
          rfl
      | ok p =>
          simp only [Sequel.run]
          rw [each_one]
          show (ev value >>= fun result => env >>= fun last => _) now = _
          refine congrFun (bind_congr fun result => bind_congr fun last => ?_) now
          cases last.array? name with
          | none => rfl
          | some elements => exact writeElement_eq_move name elements x result

section Calls

variable {s : Env} {name : String}

theorem sequel_of_unregistered (h : s.functions.get? name = none) (args : List Term) (now : Env)
    (values : List Float) : sequel s now values (.call name args) = .none := by
  rw [sequel, h]

/-- The arguments come first, in the scope of the caller. The body comes next, in the scope of the call. -/
theorem callUser_eq_inOrder {frame : Frame} (h : s.functions.get? name = some frame) (args : List Term) :
    callUser .failing ev name args s = inOrder ev (.call name args) s := by
  unfold callUser inOrder
  rw [env_bind, env_bind, h]
  simp only [opening, arguments, sequel, move, callMove, h]
  by_cases hcount : args.length = frame.definition.params.length
  · simp only [hcount, if_true, ne_eq, not_true_eq_false, if_false]
    refine congrFun (bind_congr fun values => ?_) s
    funext now
    rw [env_bind]
    simp only [Sequel.run, bind_assoc]
    refine congrFun (bind_congr fun _ => ?_) now
    rw [inCall_one]
    exact (bind_pure _).symm
  · simp only [hcount, if_false, ne_eq, not_false_eq_true, if_true]
    rfl

/-- The first argument is the name of an array and not evaluated; the array is the one found behind the other
arguments. -/
theorem callBuiltin_eq_inOrder {builtin : Builtin} (h : s.functions.get? name = none)
    (hname : Builtin.ofName? name = some builtin) (args : List Term) :
    callBuiltin .failing ev builtin args s = inOrder ev (.call name args) s := by
  rw [inOrder_of_none (sequel_of_unregistered h args)]
  simp only [opening, arguments, move, callMove, builtinMove, h, hname]
  unfold callBuiltin
  by_cases hcount : args.length = builtin.arity
  · rw [if_neg (not_not.mpr hcount)]
    simp only [if_pos hcount]
    cases args with
    | nil => rfl
    | cons first rest =>
        cases first with
        | var array =>
            show (env >>= fun _ => _) s = _
            rw [env_bind]
            rw [List.length_cons] at hcount
            by_cases hbound : s.arrays.contains array = true
            · simp only [hcount, hbound, and_self, if_true, Bool.not_true, Bool.false_eq_true, if_false]
              refine congrFun (bind_congr fun values => bind_congr fun last => ?_) s
              cases last.array? array with
              | none => rfl
              | some elements =>
                  dsimp only
                  rw [Move.run_ofResult]
                  rfl
            · simp only [hcount, hbound, Bool.not_false, if_true]
              rfl
        | _ => rfl
  · rw [if_pos hcount]
    simp only [if_neg hcount]
    cases args with
    | nil => rfl
    | cons first rest =>
        cases first with
        | var array =>
            rw [List.length_cons] at hcount
            simp only [hcount, false_and, if_false]
            rfl
        | _ => rfl

/-- A registered function hides a builtin of the same name. -/
theorem call_eq_inOrder (args : List Term) : call .failing ev name args s = inOrder ev (.call name args) s := by
  unfold call
  rw [env_bind]
  unfold Table.contains
  cases hget : s.functions.get? name with
  | some frame => exact callUser_eq_inOrder hget args
  | none =>
      cases hname : Builtin.ofName? name with
      | some builtin => exact callBuiltin_eq_inOrder hget hname args
      | none =>
          rw [inOrder_of_none (sequel_of_unregistered hget args)]
          simp only [opening, arguments, move, callMove, hget, hname]
          rfl

end Calls

/-- **Every term but a loop is evaluated in three parts**: the terms that come first, those that come next, and one
move. -/
theorem step_eq_inOrder {term : Term} (h : ∀ condition body, term ≠ .whileLoop condition body) (n : Nat) :
    step .failing n ev term = inOrder ev term := by
  funext s
  cases term with
  | number | boolean | define | array => rfl
  | var name => exact readName_eq name s
  | assign name value => exact assign_eq_inOrder name value s
  | binary op left right => exact binary_eq_inOrder op left right s
  | block statements =>
      show sequence ev 0 statements s = _
      rw [sequence_eq_each]
      rfl
  | braced body =>
      rw [inOrder_of_none fun _ _ => rfl]
      exact congrFun (optional_eq_each (some body)) s
  | ifElse condition body otherwise => exact branch_eq_inOrder condition body otherwise s
  | elseClause nested inside =>
      rw [inOrder_of_none fun _ _ => rfl]
      cases nested with
      | some nested => exact congrFun (optional_eq_each (some nested)) s
      | none => exact congrFun (optional_eq_each inside) s
  | whileLoop condition body => exact absurd rfl (h condition body)
  | print value => exact print_eq_inOrder value s
  | giveBack value =>
      rw [inOrder_of_none fun _ _ => rfl]
      exact congrFun (optional_eq_each value) s
  | call name args => exact call_eq_inOrder args
  | lookup name index => exact lookup_eq_inOrder name index s
  | store name index value => exact store_eq_inOrder name index value s

end Order

/-- A term is a loop or is evaluated part by part. -/
theorem loop_or_inOrder (term : Term) :
    (∃ condition body, term = .whileLoop condition body) ∨
      (∀ condition body, term ≠ .whileLoop condition body) ∧ ∀ n, eval (n + 1) term = inOrder (eval n) term := by
  by_cases hloop : ∃ condition body, term = .whileLoop condition body
  · exact .inl hloop
  · have hterm : ∀ condition body, term ≠ .whileLoop condition body := fun c b h => hloop ⟨c, b, h⟩
    exact .inr ⟨hterm, fun n => step_eq_inOrder hterm n⟩

/-! ## Plain moves -/

section Plain

variable (begun last : Env) (values more : List Float) (x : Float)

/-- An index may be refused in several ways, but no operator is involved. -/
theorem position_ne_invalidOperator (length : Nat) (op : Operator) :
    Elements.position x length ≠ .error (.invalidOperator op) := by
  unfold Elements.position
  split
  · dsimp only
    split
    · nofun
    · split
      · nofun
      · split <;> nofun
  · nofun

/-- Reading an element gives it, or fails. -/
theorem isPlain_elementMove (elements : Elements) (i : Nat) : (elementMove elements i).isPlain = true := by
  unfold elementMove
  split <;> rfl

theorem isPlain_replaceMove (name : String) (elements : Elements) (value : Float) (i : Nat) :
    (replaceMove name elements value i).isPlain = true := by
  unfold replaceMove
  split <;> rfl

/-- The only failure of a builtin is taking something from an empty array. -/
theorem apply_ne_invalidOperator (builtin : Builtin) (elements : Elements) (op : Operator) :
    builtin.apply elements values ≠ .error (.invalidOperator op) := by
  cases builtin with
  | len => nofun
  | push => nofun
  | pop =>
      unfold Builtin.apply
      cases elements.back? <;> nofun

theorem isPlain_readMove (name : String) : (readMove last name).isPlain = true := by
  unfold readMove
  split
  · rfl
  · split <;> rfl

theorem isPlain_lookupMove (name : String) : (lookupMove last name x).isPlain = true := by
  unfold lookupMove
  split
  · exact Move.isPlain_ofResult (isPlain_elementMove _) (position_ne_invalidOperator x _)
  · split
    · exact Move.isPlain_ofResult (isPlain_elementMove _) (position_ne_invalidOperator x _)
    · rfl

/-- Whether an element is written or not, nothing is printed or defined. -/
theorem isPlain_storeMove (name : String) : (storeMove begun last name x more).isPlain = true := by
  unfold storeMove
  split
  · split
    · exact Move.isPlain_ofResult (fun _ => rfl) (position_ne_invalidOperator x _)
    · rfl
    · exact Move.isPlain_ofResult (isPlain_replaceMove name _ _) (position_ne_invalidOperator x _)
  · rfl

theorem isPlain_builtinMove (builtin : Builtin) (args : List Term) :
    (builtinMove begun last values builtin args).isPlain = true := by
  unfold builtinMove
  split
  · split
    · split
      · exact Move.isPlain_ofResult (fun _ => rfl) (apply_ne_invalidOperator values builtin _)
      · rfl
    · rfl
    · rfl
  · rfl

/-- The body of a function is evaluated before the move, which only gives its value. -/
theorem isPlain_callMove (name : String) (args : List Term) :
    (callMove begun last values more name args).isPlain = true := by
  unfold callMove
  split
  · split <;> rfl
  · exact isPlain_builtinMove begun last values _ args
  · rfl

/-- Tells whether a term is none of those that print, define, or apply an operator. -/
def movesPlainly : Term → Bool
  | .print _ | .define _ _ _ | .binary _ _ _ => false
  | _ => true

/-- Only `print` prints, only a definition defines, and only an operation complains about its operator. -/
theorem isPlain_move {term : Term} (hterm : movesPlainly term = true) :
    (move begun last values more term).isPlain = true := by
  cases term with
  | print | define | binary => cases hterm
  | var name => exact isPlain_readMove last name
  | assign name value =>
      by_cases harray : ∃ elements, value = .array elements
      · obtain ⟨elements, rfl⟩ := harray
        rfl
      · rw [move_assign (fun elements h => harray ⟨elements, h⟩)]
        split <;> rfl
  | call name args => exact isPlain_callMove begun last values more name args
  | lookup name index => exact isPlain_lookupMove last _ name
  | store name index value => exact isPlain_storeMove begun last more _ name
  | _ => rfl

theorem move_print (value : Term) :
    move begun last values more (.print value) = match namedArray? begun value with
      | some elements => .print elements.text 0
      | none => .print (valueText value (values.getLastD 0)) (values.getLastD 0) := rfl

/-- A definition is evaluated as it is written. -/
theorem eq_define_of_move {term : Term} {d : Definition} (h : move begun last values more term = .define d) :
    term = .define d.name d.params d.body := by
  cases term with
  | define name params body =>
      cases h
      rfl
  | print value =>
      rw [move_print] at h
      split at h <;> cases h
  | binary op left right =>
      simp only [move] at h
      generalize operate op _ _ _ _ = result at h
      cases result <;> cases h
  | _ =>
      have hplain : (Move.define d).isPlain = true := by
        rw [← h]
        exact isPlain_move begun last values more rfl
      cases hplain

end Plain

/-! ## Where the terms are from -/

/-- What a call evaluates are some of its arguments, if any. -/
theorem mem_of_arguments {env : Env} {name : String} {args : List Term} {t : Term}
    (h : t ∈ arguments env name args) : t ∈ args := by
  unfold arguments at h
  split at h
  · split at h
    · exact h
    · cases h
  · split at h
    · split at h
      · exact List.mem_cons_of_mem _ h
      · cases h
    · cases h

/-- What is evaluated first stands inside the term. -/
theorem exposed_of_opening {begun : Env} {term t : Term} (h : t ∈ opening begun term) :
    ∃ part ∈ term.exposedParts, Term.Exposed t part := by
  have hpart (hmem : t ∈ term.exposedParts) : ∃ part ∈ term.exposedParts, Term.Exposed t part := ⟨t, hmem, .refl⟩
  cases term with
  | number | boolean | var | define => cases h
  | assign name value =>
      by_cases harray : ∃ elements, value = .array elements
      · obtain ⟨elements, rfl⟩ := harray
        exact ⟨.array elements, by simp [Term.exposedParts, Term.parts], .part h .refl⟩
      · rw [opening_assign fun elements h => harray ⟨elements, h⟩] at h
        split at h
        · cases h
        · exact hpart h
  | print value =>
      simp only [opening] at h
      split at h
      · cases h
      · exact hpart h
  | ifElse condition body otherwise => exact hpart (List.mem_cons.mpr (.inl (List.mem_singleton.mp h)))
  | whileLoop condition body => exact hpart (List.mem_cons.mpr (.inl (List.mem_singleton.mp h)))
  | elseClause nested inside =>
      cases nested with
      | none => exact hpart h
      | some nested => exact hpart (List.mem_cons.mpr (.inl (List.mem_singleton.mp h)))
  | store name index value =>
      simp only [opening] at h
      split at h
      · exact hpart (List.mem_cons.mpr (.inl (List.mem_singleton.mp h)))
      · cases h
  | call name args => exact hpart (mem_of_arguments h)
  | _ => exact hpart h

/-- What is evaluated next are parts of the term, or the body of the function that it calls. -/
theorem sequel_cases (begun now : Env) (values : List Float) (term : Term) :
    (∃ terms, sequel begun now values term = ⟨terms, none⟩ ∧ ∀ part ∈ terms, part ∈ term.exposedParts) ∨
      ∃ name args frame, term = .call name args ∧ begun.functions.get? name = some frame ∧
        sequel begun now values term =
          ⟨[frame.definition.body], some (name, frame.definition.params.zip values)⟩ := by
  have hnone : ∀ part ∈ ([] : List Term), part ∈ term.exposedParts := by simp
  cases term with
  | ifElse condition body otherwise =>
      refine .inl ?_
      simp only [sequel]
      split
      · exact ⟨_, rfl, by simp [Term.exposedParts, Term.parts]⟩
      · exact ⟨_, rfl, fun part hpart => List.mem_cons_of_mem _ (List.mem_cons_of_mem _ hpart)⟩
  | call name args =>
      cases hget : begun.functions.get? name with
      | none => exact .inl ⟨[], sequel_of_unregistered hget args now values, hnone⟩
      | some frame =>
          by_cases hcount : args.length = frame.definition.params.length
          · refine .inr ⟨name, args, frame, rfl, hget, ?_⟩
            simp only [sequel, hget, hcount, if_true]
          · refine .inl ⟨[], ?_, hnone⟩
            simp only [sequel, hget, hcount, if_false]
            rfl
  | store name index value =>
      refine .inl ?_
      simp only [sequel]
      split
      · split
        · exact ⟨_, rfl, by simp [Term.exposedParts, Term.parts]⟩
        · exact ⟨[], rfl, hnone⟩
      · exact ⟨[], rfl, hnone⟩
  | _ => exact .inl ⟨[], rfl, hnone⟩

end Eval
end Abacus
