import Mathlib.Data.List.Forall2
import Abacus.Eval.Term
import Abacus.Proofs.Term.Parts

/-!
# `Eval.Following` — two evaluators side by side

An evaluation that ends never takes a binding away: numbers, arrays and functions stay bound, a function keeps
its definition, and the scope of the caller returns (`Env.Keeps`). Most of what can be said about a whole run is
of this form, a relation between the state before and the state after that each action maintains. `Law` is
such a relation, with the terms it applies to.

Other facts are about **two** runs, from states that correspond but need not be the same. `Simulation` is a law for
the first run, with a correspondence to the second that no action can break; `Simulates` says that an action
maintains the law **and** that another action, from a corresponding state, ends with the same result in a
corresponding state. `Follows` is the case of one state for both runs.

The lemmas go through the evaluator once, one for each of its helpers, up to `step_simulates`. Each asks of the terms
that it evaluates that they do the same in both runs; statements, and the bodies of functions, need not be the same
terms. The induction on the fuel is in `eval_simulates`, so that a law alone makes a theorem about `eval`.

## Contents
- `Env.Keeps` — what stays;
- `Law`, `Simulation` — relations between the states of one run, and of two;
- `Simulates`, `step_simulates` — actions that maintain them, up to all terms;
- `Follows`, `step_follows` — two runs from one state;
- `eval_simulates`, `eval_maintains` — evaluation.
-/

namespace Abacus

/-! ## What stays -/

namespace Table

variable {α : Type} {table : Table α}

theorem contains_iff {name : String} : table.contains name = true ↔ ∃ value, table.get? name = some value := by
  rw [contains, Option.isSome_iff_exists]

theorem contains_insert {name other : String} {value : α} (h : table.contains other = true) :
    (table.insert name value).contains other = true := by
  rw [contains, get?_insert]
  split
  · rfl
  · exact h

end Table

/-- Nothing that was bound before is gone, functions keep their definitions, and the scope is the same. -/
structure Env.Keeps (before after : Env) : Prop where
  active : after.active = before.active
  globals : ∀ name, before.globals.contains name = true → after.globals.contains name = true
  arrays : ∀ name, before.arrays.contains name = true → after.arrays.contains name = true
  functions : ∀ name frame, before.functions.get? name = some frame →
    ∃ frame', after.functions.get? name = some frame' ∧ frame'.definition = frame.definition ∧
      (frame.called = true → frame'.called = true)

/-- The function whose call is running is registered. -/
theorem Env.get?_of_running? {env : Env} {name : String} {frame : Frame}
    (h : env.running? = some (name, frame)) : env.functions.get? name = some frame := by
  unfold Env.running? at h
  split at h
  · cases h
  · obtain ⟨frame₀, hget, hpair⟩ := Option.map_eq_some_iff.mp h
    cases hpair
    exact hget

namespace Env.Keeps

variable {a b c env : Env}

protected theorem refl (env : Env) : env.Keeps env where
  active := rfl
  globals _ h := h
  arrays _ h := h
  functions _ frame h := ⟨frame, h, rfl, id⟩

protected theorem trans (h : a.Keeps b) (h' : b.Keeps c) : a.Keeps c where
  active := h'.active.trans h.active
  globals name hname := h'.globals name (h.globals name hname)
  arrays name hname := h'.arrays name (h.arrays name hname)
  functions name frame hframe := by
    obtain ⟨frame₁, hget₁, hdef₁, hcalled₁⟩ := h.functions name frame hframe
    obtain ⟨frame₂, hget₂, hdef₂, hcalled₂⟩ := h'.functions name frame₁ hget₁
    exact ⟨frame₂, hget₂, hdef₂.trans hdef₁, fun hcalled => hcalled₂ (hcalled₁ hcalled)⟩

/-- A registered function is still registered. -/
theorem registered (h : a.Keeps b) {name : String} (hname : a.functions.contains name = true) :
    b.functions.contains name = true := by
  obtain ⟨frame, hget⟩ := Table.contains_iff.mp hname
  obtain ⟨frame', hget', -, -⟩ := h.functions name frame hget
  exact Table.contains_iff.mpr ⟨frame', hget'⟩

/-- Only functions change, and each keeps its definition. -/
theorem of_functions {functions : Table Frame}
    (h : ∀ name frame, env.functions.get? name = some frame →
      ∃ frame', functions.get? name = some frame' ∧ frame'.definition = frame.definition ∧
        (frame.called = true → frame'.called = true)) :
    env.Keeps { env with functions } :=
  ⟨rfl, fun _ hname => hname, fun _ hname => hname, h⟩

/-- A frame takes the place of another one with the same definition. -/
theorem replace_frame {function : String} {frame frame' : Frame}
    (hget : env.functions.get? function = some frame) (hdef : frame'.definition = frame.definition)
    (hcalled : frame.called = true → frame'.called = true) :
    env.Keeps { env with functions := env.functions.insert function frame' } := by
  refine of_functions fun name frame₀ hframe => ?_
  rw [Table.get?_insert]
  by_cases hname : name = function
  · subst hname
    rw [hget] at hframe
    cases hframe
    exact ⟨frame', if_pos rfl, hdef, hcalled⟩
  · rw [if_neg hname]
    exact ⟨frame₀, hframe, rfl, id⟩

theorem setScalar (name : String) (value : Float) : env.Keeps (env.setScalar name value) := by
  unfold Env.setScalar
  split
  · next function frame hrunning => exact replace_frame (get?_of_running? hrunning) rfl id
  · exact ⟨rfl, fun _ h => Table.contains_insert h, fun _ h => h,
      fun _ frame h => ⟨frame, h, rfl, id⟩⟩

theorem bindArray (name : String) (elements : Elements) : env.Keeps (env.bindArray name elements) :=
  ⟨rfl, fun _ h => h, fun _ h => Table.contains_insert h, fun _ frame h => ⟨frame, h, rfl, id⟩⟩

/-- Evaluating a definition leaves a function that is registered its body. -/
theorem define (definition : Definition) : env.Keeps (env.define definition) := by
  unfold Env.define
  split
  · next frame hget => exact replace_frame hget rfl id
  · next hget =>
    refine of_functions fun name frame hframe => ?_
    have hname : name ≠ definition.name := by
      rintro rfl
      rw [hget] at hframe
      cases hframe
    exact ⟨frame, by rw [Table.get?_insert, if_neg hname]; exact hframe, rfl, id⟩

theorem enter (function : String) (bindings : List (String × Float)) :
    env.Keeps (env.enter function bindings) := by
  refine of_functions fun name frame hframe => ?_
  rw [Table.get?_modify]
  by_cases hname : name = function
  · subst hname
    rw [if_pos rfl, hframe]
    exact ⟨_, rfl, rfl, fun _ => rfl⟩
  · rw [if_neg hname]
    exact ⟨frame, hframe, rfl, id⟩

theorem write (sink : Sink) : env.Keeps { env with sink } :=
  ⟨rfl, fun _ h => h, fun _ h => h, fun _ frame h => ⟨frame, h, rfl, id⟩⟩

/-- What a call keeps, its caller finds again in its own scope. -/
theorem leave {function : String} (h : { a with active := some function }.Keeps b) :
    a.Keeps { b with active := a.active } :=
  ⟨rfl, h.globals, h.arrays, h.functions⟩

end Env.Keeps

/-! ## Definitions -/

namespace Env

variable {env : Env} {name : String}

/-- The definition of a registered function. -/
def definition? (env : Env) (name : String) : Option Definition :=
  (env.functions.get? name).map Frame.definition

theorem definition?_eq_some {d : Definition} :
    env.definition? name = some d ↔ ∃ frame, env.functions.get? name = some frame ∧ frame.definition = d :=
  Option.map_eq_some_iff

theorem isSome_definition? : (env.definition? name).isSome = env.functions.contains name :=
  Option.isSome_map

end Env

/-! ## What may be missing -/

/-- What may be missing is related to itself if it is when it is there. -/
theorem rel_self {α : Type} {r : α → α → Prop} {x : Option α} (h : ∀ a ∈ x, r a a) : Option.Rel r x x := by
  cases x with
  | none => exact .none
  | some a => exact .some (h a rfl)

theorem rel_mono {α : Type} {r q : α → α → Prop} (h : ∀ {a b}, r a b → q a b) {x y : Option α}
    (hxy : Option.Rel r x y) : Option.Rel q x y := by
  cases hxy with
  | none => exact .none
  | some hab => exact .some (h hab)

theorem rel_flip {α : Type} {r : α → α → Prop} {x y : Option α} (hxy : Option.Rel r x y) :
    Option.Rel (fun a b => r b a) y x := by
  cases hxy with
  | none => exact .none
  | some hab => exact .some hab

theorem Definition.params_eq {d d' : Definition} (h : d = d') : d'.params = d.params := by
  rw [h]

namespace Eval

variable {α β : Type}

/-! ## Laws -/

/-- A relation between the state before and the state after an evaluation, for the terms that are allowed in
a state. -/
structure Law where
  allows : Term → Env → Prop
  rel : Env → Env → Prop
  keeps : ∀ {a b : Env}, rel a b → a.Keeps b
  refl : ∀ env, rel env env
  trans : ∀ {a b c : Env}, rel a b → rel b c → rel a c
  stays : ∀ {term : Term} {a b : Env}, allows term a → rel a b → allows term b
  part : ∀ {term part : Term} {env : Env}, allows term env → part ∈ term.exposedParts → allows part env
  /-- The body of a function that may be called is allowed in its scope. -/
  body : ∀ {name : String} {args : List Term} {frame : Frame} {a b : Env}
    (bindings : List (String × Float)), allows (.call name args) a →
    a.functions.get? name = some frame → rel a b →
    allows frame.definition.body { b.enter name bindings with active := some name }
  setScalar : ∀ {name : String} {value : Term} {env : Env} (result : Float),
    allows (.assign name value) env → rel env (env.setScalar name result)
  bindArray : ∀ env name elements, rel env (env.bindArray name elements)
  define : ∀ {name : String} {params : List String} {body : Term} {env : Env},
    allows (.define name params body) env → rel env (env.define { name, params, body })
  enter : ∀ env function bindings, rel env (env.enter function bindings)
  write : ∀ (env : Env) (sink : Sink), rel env { env with sink }
  leave : ∀ {function : String} {a b : Env}, a.functions.contains function = true →
    rel { a with active := some function } b → rel a { b with active := a.active }

/-- What is evaluated with an allowed term is allowed. -/
theorem Law.exposed (L : Law) {t term : Term} {env : Env} (h : L.allows term env) (hin : Term.Exposed t term) :
    L.allows t env := by
  induction hin with
  | refl => exact h
  | part hpart _ ih => exact ih (L.part h hpart)

/-- A law for one run, and the states of a second run that correspond to those of the first. They read the same,
and no change that both runs make takes the correspondence away. A function may have another body in the second run,
but has the same parameters. -/
structure Simulation extends Law where
  sim : Env → Env → Prop
  alike : Definition → Definition → Prop
  alike_params : ∀ {d d' : Definition}, alike d d' → d'.params = d.params
  sim_scalar? : ∀ {a b : Env}, sim a b → ∀ name, b.scalar? name = a.scalar? name
  sim_array? : ∀ {a b : Env}, sim a b → ∀ name, b.array? name = a.array? name
  sim_definition? : ∀ {a b : Env}, sim a b → ∀ name,
    Option.Rel alike (a.definition? name) (b.definition? name)
  sim_sink : ∀ {a b : Env}, sim a b → b.sink = a.sink
  sim_setScalar : ∀ {a b : Env}, sim a b → ∀ name value,
    sim (a.setScalar name value) (b.setScalar name value)
  sim_bindArray : ∀ {a b : Env}, sim a b → ∀ name elements,
    sim (a.bindArray name elements) (b.bindArray name elements)
  sim_define : ∀ {a b : Env} {d d' : Definition}, sim a b → allows (.define d.name d.params d.body) a →
    alike d d' → sim (a.define d) (b.define d')
  sim_enter : ∀ {a b : Env}, sim a b → ∀ function bindings,
    sim (a.enter function bindings) (b.enter function bindings)
  sim_write : ∀ {a b : Env}, sim a b → ∀ sink : Sink, sim { a with sink } { b with sink }
  sim_call : ∀ {a b : Env} {function : String}, sim a b → a.functions.contains function = true →
    sim { a with active := some function } { b with active := some function }
  /-- Behind a call both callers are back in their scopes. -/
  sim_leave : ∀ {a b a' b' : Env}, sim a b → a.Keeps { a' with active := a.active } → sim a' b' →
    sim { a' with active := a.active } { b' with active := b.active }

/-- Whenever `x` ends, from a state behind `base`, the law holds, and `y` ends with the same result from every
corresponding state, in a corresponding one. -/
def Simulates (S : Simulation) (base : Env) (x y : Eval α) : Prop :=
  ∀ ⦃a b⦄, S.rel base a → S.sim a b → ∀ ⦃r a'⦄, x a = some (r, a') →
    ∃ b', y b = some (r, b') ∧ S.sim a' b' ∧ S.rel a a'

theorem bind_apply (x : Eval α) (f : α → Eval β) (env : Env) :
    (x >>= f) env = match x env with
      | none => none
      | some (.ok a, env) => f a env
      | some (.error e, env) => some (.error e, env) := rfl

theorem env_bind (f : Env → Eval α) (s : Env) : (env >>= f) s = f s s := rfl

/-! ## Corresponding states -/

namespace Simulation

variable {S : Simulation} {a b : Env}

/-- Corresponding states have functions of the same names. -/
theorem sim_contains (h : S.sim a b) (name : String) :
    b.functions.contains name = a.functions.contains name := by
  have hdefinition := S.sim_definition? h name
  rw [← Env.isSome_definition?, ← Env.isSome_definition?]
  generalize a.definition? name = d, b.definition? name = d' at hdefinition
  cases hdefinition <;> rfl

/-- A registered function is registered in the second run, with a definition that is alike. -/
theorem sim_get? (h : S.sim a b) {name : String} {frame : Frame} (hget : a.functions.get? name = some frame) :
    ∃ frame', b.functions.get? name = some frame' ∧ S.alike frame.definition frame'.definition := by
  have hdefinition := S.sim_definition? h name
  rw [Env.definition?_eq_some.mpr ⟨frame, hget, rfl⟩] at hdefinition
  generalize hb : b.definition? name = definition? at hdefinition
  cases hdefinition with
  | some halike =>
      obtain ⟨frame', hget', rfl⟩ := Env.definition?_eq_some.mp hb
      exact ⟨frame', hget', halike⟩

theorem sim_arrays (h : S.sim a b) (name : String) : b.arrays.contains name = a.arrays.contains name := by
  show (b.array? name).isSome = (a.array? name).isSome
  rw [S.sim_array? h]

/-- Which array a term names, if it names one, is the same in both states. -/
theorem sim_namedArray? (h : S.sim a b) (term : Term) : namedArray? b term = namedArray? a term := by
  cases term with
  | var name =>
      show b.wholeArray? name = a.wholeArray? name
      unfold Env.wholeArray?
      rw [S.sim_scalar? h, S.sim_array? h]
  | _ => rfl

end Simulation

namespace Simulates

variable {S : Simulation} {base : Env}

/-! ## Rules: actions -/

/-- From a later state on, less is asked. -/
theorem later {base' : Env} {x y : Eval α} (h : Simulates S base x y) (hrel : S.rel base base') :
    Simulates S base' x y :=
  fun _ _ ha => h (S.trans hrel ha)

/-- Two actions that give the same and change nothing. -/
theorem still {x y : Eval α} (r : Except RuntimeError α) (hx : ∀ env, x env = some (r, env))
    (hy : ∀ env, y env = some (r, env)) : Simulates S base x y := by
  intro a b _ hab r' a' h
  rw [hx] at h
  cases h
  exact ⟨b, hy b, hab, S.refl a⟩

protected theorem pure (a : α) : Simulates S base (pure a : Eval α) (pure a) :=
  still (.ok a) (fun _ => rfl) (fun _ => rfl)

theorem fail (error : RuntimeError) : Simulates S base (Eval.fail error : Eval α) (Eval.fail error) :=
  still (.error error) (fun _ => rfl) (fun _ => rfl)

theorem lift (result : Except RuntimeError α) : Simulates S base (Eval.lift result) (Eval.lift result) :=
  still result (fun _ => rfl) (fun _ => rfl)

/-- A run that does not end has nothing to be followed. -/
theorem outOfFuel {y : Eval α} : Simulates S base Eval.outOfFuel y := by
  intro a b _ _ r a' h
  cases h

/-- A change of the state has to keep the law, and to be matched by a change of the other state. -/
theorem update {change change' : Env → Env} (h : ∀ a, S.rel base a → S.rel a (change a))
    (hsim : ∀ a b, S.rel base a → S.sim a b → S.sim (change a) (change' b)) :
    Simulates S base (Eval.update change) (Eval.update change') := by
  intro a b ha hab r a' hx
  cases hx
  exact ⟨change' b, rfl, hsim a b ha hab, h a ha⟩

/-- What is printed does not depend on anything in which the two states may differ. -/
theorem write (line : String) : Simulates S base (Eval.write line) (Eval.write line) := by
  intro a b _ hab r a' hx
  unfold Eval.write at hx ⊢
  rw [S.sim_sink hab]
  split at hx
  · cases hx
    exact ⟨_, rfl, S.sim_write hab _, S.write a _⟩
  · cases hx
    exact ⟨b, rfl, hab, S.refl a⟩

/-! ## Rules: sequences -/

/-- The second action is followed from the state that the first one has left, where the law still holds. -/
theorem bind {x y : Eval α} {f g : α → Eval β} (hx : Simulates S base x y)
    (hf : ∀ v, Simulates S base (f v) (g v)) : Simulates S base (x >>= f) (y >>= g) := by
  intro a b ha hab r a' h
  rw [bind_apply] at h
  split at h
  · cases h
  · next v a₁ hxv =>
    obtain ⟨b₁, hyv, hsim, hrel⟩ := hx ha hab hxv
    obtain ⟨b', hg, hsim', hrel'⟩ := hf v (S.trans ha hrel) hsim h
    refine ⟨b', ?_, hsim', S.trans hrel hrel'⟩
    rw [bind_apply, hyv]
    exact hg
  · next e a₁ hxe =>
    obtain ⟨b₁, hye, hsim, hrel⟩ := hx ha hab hxe
    cases h
    refine ⟨b₁, ?_, hsim, hrel⟩
    rw [bind_apply, hye]

/-- Looking at the state: what comes next starts from there. -/
theorem look {f g : Env → Eval β} (h : ∀ a b, S.rel base a → S.sim a b → Simulates S a (f a) (g b)) :
    Simulates S base (Eval.env >>= f) (Eval.env >>= g) :=
  fun a b ha hab => h a b ha hab (S.refl a) hab

/-- A call maintains the law if its body does in the scope of the function, which has to be registered. -/
theorem enterCall {function : String} {bindings : List (String × Float)} {x y : Eval α}
    (hfunction : base.functions.contains function = true)
    (h : ∀ env, S.rel base env →
      Simulates S { env.enter function bindings with active := some function } x y) :
    Simulates S base (do Eval.update (·.enter function bindings); Eval.inCall function x)
      (do Eval.update (·.enter function bindings); Eval.inCall function y) := by
  intro a b ha hab r a' hx
  have henter := S.enter a function bindings
  have hregistered : (a.enter function bindings).functions.contains function = true :=
    (S.keeps (S.trans ha henter)).registered hfunction
  have hsim := S.sim_enter hab function bindings
  show ∃ b', inCall function y (b.enter function bindings) = some (r, b') ∧ _
  change inCall function x (a.enter function bindings) = some (r, a') at hx
  unfold Eval.inCall at hx ⊢
  split at hx
  · cases hx
  · next result after hbody =>
    obtain ⟨b₁, hy, hsim₁, hrel⟩ := h a ha (S.refl _) (S.sim_call hsim hregistered) hbody
    have hleave := S.leave hregistered hrel
    cases hx
    rw [hy]
    exact ⟨_, rfl, S.sim_leave hsim (S.keeps hleave) hsim₁, S.trans henter hleave⟩

/-- More rounds do what fewer rounds do. -/
theorem repeatWhile {condition condition' body body' : Eval Float}
    (hcondition : Simulates S base condition condition') (hbody : Simulates S base body body') :
    ∀ {n m : Nat}, n ≤ m → ∀ last, Simulates S base (Eval.repeatWhile condition body n last)
      (Eval.repeatWhile condition' body' m last) := by
  intro n
  induction n with
  | zero => intro m _ last; exact outOfFuel
  | succ n ih =>
      intro m hnm last
      cases m with
      | zero => exact absurd hnm (Nat.not_succ_le_zero n)
      | succ m =>
          unfold Eval.repeatWhile
          refine hcondition.bind fun value => ?_
          split
          · exact hbody.bind fun value => ih (Nat.le_of_succ_le_succ hnm) value
          · exact .pure last

end Simulates

/-! ## Rules: the evaluator -/

section Evaluator

variable {S : Simulation} {base : Env}

theorem bindArray_simulates {α : Type} {name : String} {elements : Elements} (result : α) :
    Simulates S base (do update (·.bindArray name elements); return result)
      (do update (·.bindArray name elements); return result) :=
  (Simulates.update (fun a _ => S.bindArray a name elements)
    (fun _ _ _ hab => S.sim_bindArray hab name elements)).bind fun _ => .pure result

/-- Corresponding states read the same, and have the same functions. -/
theorem readName_simulates (name : String) : Simulates S base (readName name) (readName name) := by
  refine .look fun a b _ hab => ?_
  rw [S.sim_scalar? hab, S.sim_contains hab]
  split
  · exact .pure _
  · split
    · exact .pure 0
    · exact .fail _

/-- An array that was there is found again, whatever is done where it is gone. -/
theorem found_simulates {name : String} {missing missing' : Eval Float} {f g : Elements → Eval Float}
    (hname : base.arrays.contains name = true)
    (h : ∀ elements, Simulates S base (f elements) (g elements)) :
    Simulates S base
      (do match (← env).array? name with | none => missing | some elements => f elements)
      (do match (← env).array? name with | none => missing' | some elements => g elements) := by
  refine .look fun a b ha hab => ?_
  obtain ⟨elements, hget⟩ := Table.contains_iff.mp ((S.keeps ha).arrays name hname)
  rw [S.sim_array? hab, show a.array? name = some elements from hget]
  exact (h elements).later ha

/-- Evaluating alike definitions. -/
theorem define_simulates {d d' : Definition} (h : S.allows (.define d.name d.params d.body) base)
    (halike : S.alike d d') :
    Simulates S base (do update (·.define d); return (0 : Float)) (do update (·.define d'); return 0) := by
  have hdefine : Simulates S base (update (·.define d)) (update (·.define d')) :=
    .update (fun _ ha => S.define (S.stays h ha)) fun _ _ ha hab => S.sim_define hab (S.stays h ha) halike
  exact hdefine.bind fun _ => .pure 0

variable {ev ev' : Term → Eval Float}

/-! ### Several terms -/

/-- Lists of terms are followed term by term. -/
theorem each_simulates {terms terms' : List Term}
    (h : List.Forall₂ (fun t t' => Simulates S base (ev t) (ev' t')) terms terms') :
    Simulates S base (each ev terms) (each ev' terms') := by
  induction h with
  | nil => exact .pure []
  | cons hterm _ ih =>
      refine hterm.bind fun value => ?_
      exact ih.bind fun values => .pure _

theorem sequence_simulates {terms terms' : List Term}
    (h : List.Forall₂ (fun t t' => Simulates S base (ev t) (ev' t')) terms terms') (last : Float) :
    Simulates S base (sequence ev last terms) (sequence ev' last terms') := by
  induction h generalizing last with
  | nil => exact .pure last
  | cons hterm _ ih => exact hterm.bind fun value => ih value

theorem optional_simulates {term term' : Option Term}
    (h : Option.Rel (fun t t' => Simulates S base (ev t) (ev' t')) term term') :
    Simulates S base (optional ev term) (optional ev' term') := by
  cases h with
  | none => exact .pure 0
  | some hterm => exact hterm

/-- The condition has the same value in both runs, so both take the same branch. -/
theorem branch_simulates {condition condition' body body' : Term} {otherwise otherwise' : Option Term}
    (hcondition : Simulates S base (ev condition) (ev' condition'))
    (hbody : Simulates S base (ev body) (ev' body'))
    (hotherwise : Option.Rel (fun t t' => Simulates S base (ev t) (ev' t')) otherwise otherwise') :
    Simulates S base
      (do if Number.isTruthy (← ev condition) then ev body else optional ev otherwise)
      (do if Number.isTruthy (← ev' condition') then ev' body' else optional ev' otherwise') := by
  refine hcondition.bind fun value => ?_
  split
  · exact hbody
  · exact optional_simulates hotherwise

/-! ### Names and operators -/

theorem assignScalar_simulates {name : String} {value : Term} (h : S.allows (.assign name value) base)
    (hvalue : Simulates S base (ev value) (ev' value)) :
    Simulates S base (assignScalar ev name value) (assignScalar ev' name value) := by
  refine hvalue.bind fun result => ?_
  have hset : Simulates S base (update (·.setScalar name result)) (update (·.setScalar name result)) :=
    .update (fun _ ha => S.setScalar result (S.stays h ha)) fun _ _ _ hab => S.sim_setScalar hab name result
  exact hset.bind fun _ => .pure result

/-- What is assigned is an array in two cases, and otherwise a number. -/
theorem assign_simulates {name : String} {value : Term} (h : S.allows (.assign name value) base)
    (hev : ∀ {t : Term}, Term.Exposed t value → Simulates S base (ev t) (ev' t)) :
    Simulates S base (assign ev name value) (assign ev' name value) := by
  unfold assign
  split
  · next elements =>
    have helements : ∀ t ∈ elements, Simulates S base (ev t) (ev' t) := fun t ht => hev (.part ht .refl)
    refine (each_simulates (List.forall₂_same.mpr helements)).bind fun values => ?_
    exact bindArray_simulates 0
  · refine .look fun a b ha hab => ?_
    rw [S.sim_namedArray? hab]
    split
    · exact bindArray_simulates 0
    · exact assignScalar_simulates (S.stays h ha) ((hev .refl).later ha)

theorem print_simulates {term : Term} (h : Simulates S base (ev term) (ev' term)) :
    Simulates S base (print ev term) (print ev' term) := by
  refine .look fun a b ha hab => ?_
  rw [S.sim_namedArray? hab]
  split
  · exact (Simulates.write _).bind fun _ => .pure 0
  · refine (h.later ha).bind fun value => ?_
    exact (Simulates.write _).bind fun _ => .pure value

/-- The values of the operands are the same, and an operator is only about values. -/
theorem binary_simulates {op : Operator} {left right : Term} (hleft : Simulates S base (ev left) (ev' left))
    (hright : Simulates S base (ev right) (ev' right)) (other : Operator → Except RuntimeError Float) :
    Simulates S base (binary ev op left right other) (binary ev' op left right other) := by
  refine hleft.bind fun x => ?_
  exact hright.bind fun y => .lift _

/-! ### Elements -/

/-- The elements and the index are the same, so both runs find the same place, or neither does. -/
theorem readElement_simulates {beyond : Eval Float} (hbeyond : Simulates S base beyond beyond)
    (elements : Elements) (index : Float) :
    Simulates S base (readElement beyond elements index) (readElement beyond elements index) := by
  refine (Simulates.lift _).bind fun i => ?_
  split
  · exact .pure _
  · exact hbeyond

theorem writeElement_simulates {beyond : Eval Float} (hbeyond : Simulates S base beyond beyond)
    (name : String) (elements : Elements) (index value : Float) :
    Simulates S base (writeElement beyond name elements index value)
      (writeElement beyond name elements index value) := by
  refine (Simulates.lift _).bind fun i => ?_
  split
  · exact bindArray_simulates value
  · exact hbeyond

/-! ### Checks that are made twice -/

variable (again again' : Recheck)

/-- The array is looked up behind the index, where the states correspond again. -/
theorem lookup_simulates {name : String} {index : Term} (h : Simulates S base (ev index) (ev' index)) :
    Simulates S base (lookup again.arms ev name index) (lookup again'.arms ev' name index) := by
  refine h.bind fun index => ?_
  refine .look fun a b _ hab => ?_
  rw [S.sim_array? hab, S.sim_scalar? hab]
  split
  · exact readElement_simulates (.fail _) _ index
  · split
    · exact readElement_simulates (.fail _) _ index
    · exact .fail _

/-- Both runs check the index before the value, and write behind both. -/
theorem store_simulates {name : String} {index value : Term}
    (hindex : Simulates S base (ev index) (ev' index)) (hvalue : Simulates S base (ev value) (ev' value)) :
    Simulates S base (store again.arms ev name index value) (store again'.arms ev' name index value) := by
  refine .look fun a b ha hab => ?_
  rw [S.sim_arrays hab]
  split
  · exact .fail _
  · next hname =>
    refine (hindex.later ha).bind fun index => ?_
    refine .look fun a₁ b₁ ha₁ hab₁ => ?_
    rw [S.sim_array? hab₁]
    refine (Simulates.lift _).bind fun _ => ?_
    refine (hvalue.later (S.trans ha ha₁)).bind fun result => ?_
    -- the array was bound before the index and the value were evaluated, so it still is
    refine found_simulates ((S.keeps ha₁).arrays name (by simpa using hname)) fun elements => ?_
    exact writeElement_simulates (.fail _) name elements index result

/-- A builtin is called by the number and the values of its arguments. -/
theorem callBuiltin_simulates {builtin : Builtin} {args : List Term}
    (h : ∀ t ∈ args, Simulates S base (ev t) (ev' t)) :
    Simulates S base (callBuiltin again ev builtin args) (callBuiltin again' ev' builtin args) := by
  unfold callBuiltin
  split
  · exact .fail _
  · split
    · next name rest _ =>
      refine .look fun a b ha hab => ?_
      rw [S.sim_arrays hab]
      split
      · exact .fail _
      · next hname =>
        have hrest : ∀ t ∈ rest, Simulates S a (ev t) (ev' t) := fun t ht =>
          (h t (List.mem_cons_of_mem _ ht)).later ha
        refine (each_simulates (List.forall₂_same.mpr hrest)).bind fun values => ?_
        -- evaluating the other arguments leaves the array bound
        refine found_simulates (by simpa using hname) fun elements => ?_
        exact (Simulates.lift _).bind fun result => bindArray_simulates result.1
    · exact .fail _
    · exact .fail _

section Calls

variable (hbody : ∀ {d d' : Definition} {base : Env}, S.alike d d' → S.allows d.body base →
  Simulates S base (ev d.body) (ev' d'.body))

include hbody

/-- A registered function is found, with alike definitions in both runs, and its body is evaluated in its scope. -/
theorem callUser_simulates {name : String} {args : List Term} (h : S.allows (.call name args) base)
    (hargs : ∀ t ∈ args, Simulates S base (ev t) (ev' t)) (hname : base.functions.contains name = true) :
    Simulates S base (callUser again ev name args) (callUser again' ev' name args) := by
  refine .look fun a b ha hab => ?_
  have hregistered := (S.keeps ha).registered hname
  obtain ⟨frame, hget⟩ := Table.contains_iff.mp hregistered
  obtain ⟨frame', hget', halike⟩ := S.sim_get? hab hget
  have henter := S.stays h ha
  rw [hget, hget']
  obtain ⟨definition, locals, called⟩ := frame
  obtain ⟨definition', locals', called'⟩ := frame'
  have hparams : definition'.params = definition.params := S.alike_params halike
  show Simulates S a (if args.length ≠ definition.params.length then _ else _)
    (if args.length ≠ definition'.params.length then _ else _)
  rw [hparams]
  split
  · exact .fail _
  · have hargs' : ∀ t ∈ args, Simulates S a (ev t) (ev' t) := fun t ht => (hargs t ht).later ha
    refine (each_simulates (List.forall₂_same.mpr hargs')).bind fun values => ?_
    exact .enterCall hregistered fun a₁ ha₁ => hbody halike (S.body _ henter hget ha₁)

/-- Whether a name is a function is the same in corresponding states. -/
theorem call_simulates {name : String} {args : List Term} (h : S.allows (.call name args) base)
    (hargs : ∀ t ∈ args, Simulates S base (ev t) (ev' t)) :
    Simulates S base (call again ev name args) (call again' ev' name args) := by
  refine .look fun a b ha hab => ?_
  have hargs' : ∀ t ∈ args, Simulates S a (ev t) (ev' t) := fun t ht => (hargs t ht).later ha
  rw [S.sim_contains hab]
  split
  · next hname => exact callUser_simulates again again' hbody (S.stays h ha) hargs' hname
  · split
    · exact callBuiltin_simulates again again' hargs'
    · exact .fail _

/-! ### All terms -/

/-- **One round of the evaluator** maintains every simulation that the rounds inside it maintain. With more fuel,
and with anything else done where a second check fails, it does the same. -/
theorem step_simulates {n m : Nat} (hnm : n ≤ m) {term : Term} (h : S.allows term base)
    (hev : ∀ {t : Term}, Term.Exposed t term → Simulates S base (ev t) (ev' t))
    (hdefine : ∀ {d : Definition}, term = .define d.name d.params d.body → S.alike d d) :
    Simulates S base (step again.arms n ev term) (step again'.arms m ev' term) := by
  have part : ∀ t ∈ term.exposedParts, Simulates S base (ev t) (ev' t) := fun t ht => hev (.part ht .refl)
  cases term with
  | number value => exact .pure value
  | boolean value => exact .pure _
  | var name => exact readName_simulates name
  | assign name value =>
      exact assign_simulates h fun ht => hev (.part (by simp [Term.exposedParts, Term.parts]) ht)
  | binary op left right =>
      exact binary_simulates (part left (by simp [Term.exposedParts, Term.parts]))
        (part right (by simp [Term.exposedParts, Term.parts])) _
  | block statements => exact sequence_simulates (List.forall₂_same.mpr part) 0
  | braced body => exact part body (by simp [Term.exposedParts, Term.parts])
  | ifElse condition body otherwise =>
      refine branch_simulates (part condition (by simp [Term.exposedParts, Term.parts]))
        (part body (by simp [Term.exposedParts, Term.parts])) (rel_self fun t ht => part t ?_)
      simpa [Term.exposedParts, Term.parts] using .inr (.inr ht)
  | elseClause nested inside =>
      cases nested with
      | some nested => exact part nested (by simp [Term.exposedParts, Term.parts])
      | none =>
          refine optional_simulates (rel_self fun t ht => part t ?_)
          simpa [Term.exposedParts, Term.parts] using ht
  | whileLoop condition body =>
      exact .repeatWhile (part condition (by simp [Term.exposedParts, Term.parts]))
        (part body (by simp [Term.exposedParts, Term.parts])) hnm 0
  | print value => exact print_simulates (part value (by simp [Term.exposedParts, Term.parts]))
  | define name params body => exact define_simulates (d := ⟨name, params, body⟩) h (hdefine rfl)
  | giveBack value => exact optional_simulates (rel_self fun t ht => part t (Option.mem_toList.mpr ht))
  | call name args => exact call_simulates again again' hbody h part
  | array elements => exact (each_simulates (List.forall₂_same.mpr part)).bind fun _ => .pure 0
  | lookup name index =>
      exact lookup_simulates again again' (part index (by simp [Term.exposedParts, Term.parts]))
  | store name index value =>
      exact store_simulates again again' (part index (by simp [Term.exposedParts, Term.parts]))
        (part value (by simp [Term.exposedParts, Term.parts]))

end Calls

end Evaluator

/-! ## Two runs from one state -/

/-- The law alone: corresponding states are the same. -/
def Law.alone (L : Law) : Simulation where
  toLaw := L
  sim a b := a = b
  alike d d' := d = d'
  alike_params := @Definition.params_eq
  sim_scalar? := by rintro a _ rfl name; rfl
  sim_array? := by rintro a _ rfl name; rfl
  sim_definition? := by rintro a _ rfl name; exact rel_self fun _ _ => rfl
  sim_sink := by rintro a _ rfl; rfl
  sim_setScalar := by rintro a _ rfl name value; rfl
  sim_bindArray := by rintro a _ rfl name elements; rfl
  sim_define := by rintro a _ d _ rfl _ rfl; rfl
  sim_enter := by rintro a _ rfl function bindings; rfl
  sim_write := by rintro a _ rfl sink; rfl
  sim_call := by rintro a _ function rfl _; rfl
  sim_leave := by rintro a _ a' _ rfl _ rfl; rfl

/-- Whenever `x` ends, from `base` or a state behind it, `y` does the same and the law holds. -/
def Follows (L : Law) (base : Env) (x y : Eval α) : Prop :=
  ∀ ⦃env⦄, L.rel base env → ∀ ⦃r env'⦄, x env = some (r, env') →
    y env = some (r, env') ∧ L.rel env env'

theorem follows_iff {L : Law} {base : Env} {x y : Eval α} :
    Follows L base x y ↔ Simulates L.alone base x y := by
  constructor
  · rintro h a _ ha rfl r a' hx
    obtain ⟨hy, hrel⟩ := h ha hx
    exact ⟨a', hy, rfl, hrel⟩
  · intro h env henv r env' hx
    obtain ⟨_, hy, rfl, hrel⟩ := h henv rfl hx
    exact ⟨hy, hrel⟩

theorem Follows.outOfFuel {L : Law} {base : Env} {y : Eval α} : Follows L base Eval.outOfFuel y :=
  follows_iff.mpr .outOfFuel

/-- One round of the evaluator maintains every law that the rounds inside it maintain. -/
theorem step_follows {L : Law} {base : Env} {ev ev' : Term → Eval Float}
    (hev : ∀ {term : Term} {base : Env}, L.allows term base → Follows L base (ev term) (ev' term))
    (again again' : Recheck) {n m : Nat} (hnm : n ≤ m) {term : Term} (h : L.allows term base) :
    Follows L base (step again.arms n ev term) (step again'.arms m ev' term) := by
  have hpart : ∀ {t : Term} {base : Env}, L.allows t base → Simulates L.alone base (ev t) (ev' t) :=
    fun ht => follows_iff.mp (hev ht)
  refine follows_iff.mpr (step_simulates (S := L.alone) again again' ?_ hnm h
    (fun ht => hpart (L.exposed h ht)) fun _ => rfl)
  rintro d _ base rfl hbody
  exact hpart hbody

/-! ## Evaluation -/

/-- **Every evaluation maintains every simulation** in which functions have the same definitions, and more fuel does
the same. -/
theorem eval_simulates {S : Simulation} (hsame : ∀ {d d' : Definition}, S.alike d d' ↔ d = d') {n m : Nat}
    (hnm : n ≤ m) {term : Term} {base : Env} (h : S.allows term base) :
    Simulates S base (eval n term) (eval m term) := by
  induction n generalizing m term base with
  | zero => exact .outOfFuel
  | succ n ih =>
      cases m with
      | zero => exact absurd hnm (Nat.not_succ_le_zero n)
      | succ m =>
          have hle := Nat.le_of_succ_le_succ hnm
          refine step_simulates .failing .failing ?_ hle h (fun ht => ih hle (S.exposed h ht))
            fun _ => hsame.mpr rfl
          intro d d' base halike hbody
          cases hsame.mp halike
          exact ih hle hbody

/-- Every evaluation maintains every law, and ends the same with more fuel. -/
theorem eval_maintains {L : Law} {n m : Nat} (hnm : n ≤ m) {term : Term} {env after : Env}
    {r : Except RuntimeError Float} (h : L.allows term env) (heval : eval n term env = some (r, after)) :
    eval m term env = some (r, after) ∧ L.rel env after :=
  follows_iff.mpr (eval_simulates (S := L.alone) .rfl hnm h) (L.refl env) heval

end Eval
end Abacus
