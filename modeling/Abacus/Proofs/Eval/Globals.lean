import Abacus.Proofs.Eval.Functions

/-!
# `Eval.Globals` — the global numbers during a call

A function has a table of numbers of its own. While one of its calls is running (`Env.InCall`), numbers are read
from that table and bound in it, and the globals are out of reach in both directions:

- **no writes**: a call leaves the table of globals as it is, whatever it does and calls in turn. So the globals that
  differ after an evaluation outside any call are targets of assignments that stand in the term itself, and not in a
  body that it defines (`Env.ChangesOnly`);
- **no reads**: two runs inside a call that differ in their globals alone have the same result and end in states that
  again differ in their globals alone (`Env.Beside`). Only a definition copies the globals, so this is about
  programs without definitions inside bodies.

## Contents
- `Env.InCall` — numbers in scope during a call;
- `globalsLaw` — writes;
- `plainLaw`, `besideGlobals` — reads;
- `eval_call_withGlobals` — calls with known arguments.
-/

namespace Abacus

/-! ## Numbers in scope during a call -/

/-- A call of a registered function is running. -/
def Env.InCall (env : Env) : Prop :=
  ∃ name, env.active = some name ∧ env.functions.contains name = true

namespace Env

variable {env after : Env}

theorem InCall.running? (h : env.InCall) : ∃ name frame, env.running? = some (name, frame) := by
  obtain ⟨name, hactive, hname⟩ := h
  obtain ⟨frame, hget⟩ := Table.contains_iff.mp hname
  refine ⟨name, frame, ?_⟩
  rw [Env.running?, hactive]
  simp [hget]

theorem InCall.wellScoped (h : env.InCall) : env.WellScoped := by
  obtain ⟨name, hactive, hname⟩ := h
  intro name' hactive'
  rw [hactive] at hactive'
  cases hactive'
  exact hname

theorem InCall.of_keeps (h : env.InCall) (hkeeps : env.Keeps after) : after.InCall := by
  obtain ⟨name, hactive, hname⟩ := h
  exact ⟨name, hkeeps.active.trans hactive, hkeeps.registered hname⟩

theorem wellScoped_of_idle (h : env.active = none) : env.WellScoped := by
  intro name hactive
  rw [h] at hactive
  cases hactive

theorem running?_of_idle (h : env.active = none) : env.running? = none := by
  rw [Env.running?, h]

/-- During a call, binding a number leaves the globals alone. -/
theorem InCall.globals_setScalar (h : env.InCall) (name : String) (value : Float) :
    (env.setScalar name value).globals = env.globals := by
  obtain ⟨function, frame, hrunning⟩ := h.running?
  rw [Env.setScalar, hrunning]

/-- Outside any call, a number is bound among the globals. -/
theorem globals_setScalar_of_idle (h : env.active = none) (name : String) (value : Float) :
    (env.setScalar name value).globals = env.globals.insert name value := by
  rw [Env.setScalar, running?_of_idle h]

theorem globals_define (d : Definition) : (env.define d).globals = env.globals := by
  unfold Env.define
  split
  · rfl
  · rfl

end Env

/-! ## Writes -/

/-- Nothing is lost, a call leaves the globals as they are, and outside any call no globals change but those in
`names`. -/
structure Env.ChangesOnly (names : String → Prop) (before after : Env) : Prop where
  keeps : before.Keeps after
  inCall : before.InCall → after.globals = before.globals
  idle : before.active = none → ∀ name, ¬names name → after.globals.get? name = before.globals.get? name

namespace Env.ChangesOnly

variable {names : String → Prop} {a b c : Env}

/-- No globals change at all. -/
theorem of_globals (hkeeps : a.Keeps b) (h : b.globals = a.globals) : a.ChangesOnly names b :=
  ⟨hkeeps, fun _ => h, fun _ name _ => by rw [h]⟩

protected theorem trans (h : a.ChangesOnly names b) (h' : b.ChangesOnly names c) : a.ChangesOnly names c where
  keeps := h.keeps.trans h'.keeps
  inCall hcall := (h'.inCall (hcall.of_keeps h.keeps)).trans (h.inCall hcall)
  idle hidle name hname :=
    (h'.idle (h.keeps.active.trans hidle) name hname).trans (h.idle hidle name hname)

theorem setScalar {name : String} (value : Float) (h : a.active = none → names name) :
    a.ChangesOnly names (a.setScalar name value) where
  keeps := .setScalar name value
  inCall hcall := hcall.globals_setScalar name value
  idle hidle other hother := by
    have hne : other ≠ name := by
      rintro rfl
      exact hother (h hidle)
    rw [Env.globals_setScalar_of_idle hidle, Table.get?_insert, if_neg hne]

end Env.ChangesOnly

namespace Eval

/-- The law of global numbers: outside any call, terms assign to `names` only. -/
def globalsLaw (names : String → Prop) : Law where
  allows term env := env.WellScoped ∧
    (env.active = none → ∀ name value, Term.Exposed (.assign name value) term → names name)
  rel := Env.ChangesOnly names
  keeps h := h.keeps
  refl env := .of_globals (.refl env) rfl
  trans := .trans
  stays h hrel := by
    refine ⟨h.1.of_keeps hrel.keeps, fun hidle => h.2 ?_⟩
    rw [← hrel.keeps.active]
    exact hidle
  part h hpart := ⟨h.1, fun hidle name value hin => h.2 hidle name value (.part hpart hin)⟩
  -- in the scope of the function nothing is asked of its body
  body bindings _ hget hrel :=
    ⟨wellScoped_of_call hget (hrel.keeps.trans (.enter _ bindings)), fun hidle => nomatch hidle⟩
  setScalar result h := .setScalar result fun hidle => h.2 hidle _ _ .refl
  bindArray _ name elements := .of_globals (.bindArray name elements) rfl
  define _ := .of_globals (.define _) (Env.globals_define _)
  enter _ function bindings := .of_globals (.enter function bindings) rfl
  write _ sink := .of_globals (.write sink) rfl
  leave hfunction h := .of_globals (.leave h.keeps) (h.inCall ⟨_, rfl, hfunction⟩)

section Writes

variable {env after : Env} {fuel : Nat} {term : Term} {r : Except RuntimeError Float}

/-- During a call the globals stay as they are. -/
theorem eval_globals_eq (henv : env.InCall) (h : eval fuel term env = some (r, after)) :
    after.globals = env.globals := by
  have hlaw : (globalsLaw fun _ => True).allows term env :=
    ⟨henv.wellScoped, fun _ _ _ _ => trivial⟩
  exact (eval_maintains (Nat.le_refl fuel) hlaw h).2.inCall henv

/-- **Functions cannot write globals.** During a call an evaluation that ends, with a value or with a failure,
leaves the table of globals as it is. Outside any call the globals that differ afterwards are targets of assignments
that stand in the term, outside the bodies it defines, whatever functions it calls. -/
theorem eval_changes_exposed_globals (h : eval fuel term env = some (r, after)) :
    (env.InCall → after.globals = env.globals) ∧
      (env.active = none → ∀ name, after.globals.get? name ≠ env.globals.get? name →
        ∃ value, Term.Exposed (.assign name value) term) := by
  constructor
  · intro hcall
    exact eval_globals_eq hcall h
  · intro hidle name hdiffers
    let targets (name : String) : Prop := ∃ value, Term.Exposed (.assign name value) term
    have hlaw : (globalsLaw targets).allows term env :=
      ⟨Env.wellScoped_of_idle hidle, fun _ _ value hin => ⟨value, hin⟩⟩
    have hchanges : env.ChangesOnly targets after := (eval_maintains (Nat.le_refl fuel) hlaw h).2
    by_cases htarget : targets name
    · exact htarget
    · exact absurd (hchanges.idle hidle name htarget) hdiffers

end Writes

/-- A call of `f`, which assigns to `x`, behind an assignment to `y`: from outside any call only `y` becomes a
global, and from inside a call of `f` nothing does. -/
theorem eval_changes_exposed_globals_call :
    let env := Env.empty.register ⟨"f", [], .assign "x" (.boolean true)⟩
    let term : Term := .block [.assign "y" (.boolean true), .call "f" []]
    (∃ r after, eval 4 term env = some (r, after) ∧
      after.globals.get? "x" = none ∧ after.globals.get? "y" ≠ env.globals.get? "y" ∧
      ∃ value, Term.Exposed (.assign "y" value) term) ∧
    ∃ r after, eval 4 term { env with active := some "f" } = some (r, after) ∧
      after.globals = env.globals := by
  intro env term
  let value := Number.ofTruth true
  let called : Frame := ⟨⟨"f", [], .assign "x" (.boolean true)⟩, ⟨[("x", value)]⟩, true⟩
  constructor
  · let after := { env with globals := ⟨[("y", value)]⟩, functions := ⟨[("f", called)]⟩ }
    have hrun : eval 4 term env = some (.ok value, after) := rfl
    have hdiffers : after.globals.get? "y" ≠ env.globals.get? "y" := by
      show some value ≠ none
      exact Option.some_ne_none value
    exact ⟨_, after, hrun, rfl, hdiffers, (eval_changes_exposed_globals hrun).2 rfl "y" hdiffers⟩
  · let called := { called with locals := ⟨[("y", value), ("x", value)]⟩ }
    let after := { env with functions := ⟨[("f", called)]⟩, active := some "f" }
    have hrun : eval 4 term { env with active := some "f" } = some (.ok value, after) := rfl
    exact ⟨_, after, hrun, (eval_changes_exposed_globals hrun).1 ⟨"f", rfl, rfl⟩⟩

end Eval

/-! ## Reads -/

/-- No definition stands inside the body of a registered function. -/
def Env.Plain (env : Env) : Prop :=
  ∀ name frame, env.functions.get? name = some frame → ∀ d, ¬frame.definition.body.Defines d

/-- A call is running, and the second state differs from the first in its globals alone. -/
def Env.Beside (a b : Env) : Prop := a.InCall ∧ ∃ globals, b = { a with globals }

namespace Env

variable {a b : Env}

theorem Plain.of_sameFunctions (ha : a.Plain) (h : a.SameFunctions b) : b.Plain :=
  Env.BodiesHave.of_sameFunctions (P := fun body => ∀ d, ¬body.Defines d) ha h

/-- What a call reads does not depend on the globals. -/
theorem InCall.scalar?_globals (h : a.InCall) (globals : Table Float) (name : String) :
    { a with globals }.scalar? name = a.scalar? name := by
  obtain ⟨function, frame, hrunning⟩ := h.running?
  have hbeside : { a with globals }.running? = some (function, frame) := hrunning
  unfold Env.scalar? Env.scope
  rw [hrunning, hbeside]

/-- What a call binds does not depend on the globals. -/
theorem InCall.setScalar_globals (h : a.InCall) (globals : Table Float) (name : String) (value : Float) :
    { a with globals }.setScalar name value = { a.setScalar name value with globals } := by
  obtain ⟨function, frame, hrunning⟩ := h.running?
  have hbeside : { a with globals }.running? = some (function, frame) := hrunning
  unfold Env.setScalar
  rw [hrunning, hbeside]

end Env

namespace Eval

/-- The law of programs without definitions: functions stay as they are. -/
def plainLaw : Law :=
  { functionsLaw with
    allows := fun term env => env.Plain ∧ ∀ d, ¬term.Defines d
    stays := fun h hrel => ⟨h.1.of_sameFunctions hrel, h.2⟩
    part := fun h hpart => ⟨h.1, fun d hd => h.2 d (.part (Term.mem_parts_of_exposed hpart) hd)⟩
    body := fun {name _ frame a b} bindings h hget hrel => by
      have henter : a.SameFunctions (b.enter name bindings) := .trans hrel (.enter name bindings)
      have hplain : (b.enter name bindings).Plain := h.1.of_sameFunctions henter
      exact ⟨hplain, h.1 name frame hget⟩
    setScalar := fun result _ => .setScalar _ result
    define := fun {name params body _} h => absurd .refl (h.2 ⟨name, params, body⟩) }

/-- **No action of a call can tell which globals there are.** -/
def besideGlobals : Simulation where
  toLaw := plainLaw
  sim := Env.Beside
  alike d d' := d = d'
  alike_params := @Definition.params_eq
  sim_scalar? := by
    rintro a _ ⟨hcall, globals, rfl⟩ name
    exact hcall.scalar?_globals globals name
  sim_array? := by
    rintro a _ ⟨_, globals, rfl⟩ name
    rfl
  sim_definition? := by
    rintro a _ ⟨_, globals, rfl⟩ name
    exact rel_self fun _ _ => rfl
  sim_sink := by
    rintro a _ ⟨_, globals, rfl⟩
    rfl
  sim_setScalar := by
    rintro a _ ⟨hcall, globals, rfl⟩ name value
    exact ⟨hcall.of_keeps (.setScalar name value), globals, hcall.setScalar_globals globals name value⟩
  sim_bindArray := by
    rintro a _ ⟨hcall, globals, rfl⟩ name elements
    exact ⟨hcall, globals, rfl⟩
  -- a definition would copy the globals, but there is none
  sim_define := by
    intro a _ d _ _ hallows
    have hterm : ∀ d', ¬Term.Defines d' (.define d.name d.params d.body) := hallows.2
    exact absurd .refl (hterm d)
  sim_enter := by
    rintro a _ ⟨hcall, globals, rfl⟩ function bindings
    exact ⟨hcall.of_keeps (.enter function bindings), globals, rfl⟩
  sim_write := by
    rintro a _ ⟨hcall, globals, rfl⟩ sink
    exact ⟨hcall, globals, rfl⟩
  sim_call := by
    rintro a _ function ⟨_, globals, rfl⟩ hfunction
    exact ⟨⟨function, rfl, hfunction⟩, globals, rfl⟩
  sim_leave := by
    rintro a _ a' _ ⟨hcall, _, rfl⟩ hkeeps ⟨_, globals, rfl⟩
    exact ⟨hcall.of_keeps hkeeps, globals, rfl⟩

section Reads

variable {env : Env} (hbodies : env.Plain)

include hbodies

/-- An evaluation during a call that ends, ends the same with other globals. -/
theorem eval_beside {term : Term} (hterm : ∀ d, ¬term.Defines d) (henv : env.InCall) {fuel : Nat}
    {r : Except RuntimeError Float} {after : Env} (h : eval fuel term env = some (r, after))
    (globals : Table Float) :
    eval fuel term { env with globals } = some (r, { after with globals }) := by
  have hallows : besideGlobals.allows term env := ⟨hbodies, hterm⟩
  have hsim : besideGlobals.sim env { env with globals } := ⟨henv, globals, rfl⟩
  obtain ⟨b, hb, ⟨_, globals', rfl⟩, _⟩ :=
    eval_simulates (S := besideGlobals) .rfl (Nat.le_refl fuel) hallows (besideGlobals.refl env) hsim h
  -- the second run keeps its globals, too
  have henv' : { env with globals }.InCall := henv
  have hsame : globals' = globals := eval_globals_eq henv' hb
  rw [hb, hsame]

/-- With other globals the result is the same, and so is everything behind it but the globals. -/
theorem eval_withGlobals {term : Term} (hterm : ∀ d, ¬term.Defines d) (henv : env.InCall) (fuel : Nat)
    (globals : Table Float) :
    eval fuel term { env with globals } =
      (eval fuel term env).map fun x => (x.1, { x.2 with globals }) := by
  cases h : eval fuel term env with
  | some x => exact eval_beside hbodies hterm henv h globals
  | none =>
      -- a run that ended with these globals would end with those of `env`
      cases h' : eval fuel term { env with globals } with
      | none => rfl
      | some x =>
          have hbodies' : { env with globals }.Plain := hbodies
          have hback := eval_beside hbodies' hterm henv h' env.globals
          change eval fuel term env = _ at hback
          rw [h] at hback
          cases hback

end Reads

/-! ## Calls with known arguments -/

/-- Numbers are evaluated in every state alike, unless there is no fuel. -/
theorem each_numbers (fuel : Nat) (values : List Float) :
    (∀ env, each (eval fuel) (values.map .number) env = none) ∨
      ∀ env, each (eval fuel) (values.map .number) env = some (.ok values, env) := by
  cases fuel with
  | zero =>
      cases values with
      | nil => exact .inr fun _ => rfl
      | cons value rest => exact .inl fun _ => rfl
  | succ n =>
      refine .inr fun env => ?_
      induction values with
      | nil => rfl
      | cons value rest ih =>
          show (each (eval (n + 1)) (rest.map .number) >>= fun values => pure (value :: values)) env = _
          rw [bind_apply, ih]
          rfl

/-- A call of a registered function: once its arguments are known, its body is evaluated in its scope. -/
theorem eval_call {env : Env} {name : String} {frame : Frame} (hget : env.functions.get? name = some frame)
    (fuel : Nat) (args : List Term) :
    eval (fuel + 1) (.call name args) env =
      (if args.length ≠ frame.definition.params.length then
        fail (.argumentCount name frame.definition.params.length args.length)
      else do
        let values ← each (eval fuel) args
        update (·.enter name (frame.definition.params.zip values))
        inCall name (eval fuel frame.definition.body) : Eval Float) env := by
  have hname : env.functions.contains name = true := Table.contains_iff.mpr ⟨frame, hget⟩
  obtain ⟨definition, locals, called⟩ := frame
  show (if env.functions.contains name = true then callUser .failing (eval fuel) name args else _) env = _
  rw [if_pos hname, callUser, bind_apply]
  dsimp only [Eval.env]
  rw [hget]

/-- A function applied to given numbers gives the same with other globals, from whatever scope it is called. -/
theorem eval_call_withGlobals {env : Env} (hbodies : env.Plain) {name : String}
    (hname : env.functions.contains name = true) (values : List Float) (fuel : Nat) (globals : Table Float) :
    eval fuel (.call name (values.map .number)) { env with globals } =
      (eval fuel (.call name (values.map .number)) env).map fun x => (x.1, { x.2 with globals }) := by
  obtain ⟨frame, hget⟩ := Table.contains_iff.mp hname
  cases fuel with
  | zero => rfl
  | succ fuel =>
      have hget' : { env with globals }.functions.get? name = some frame := hget
      rw [eval_call hget, eval_call hget']
      split
      · rfl
      · rw [bind_apply, bind_apply]
        rcases each_numbers fuel values with hnone | hvalues
        · rw [hnone, hnone]
          rfl
        · rw [hvalues, hvalues]
          -- the body runs in the scope of the function, which does not see the globals
          let start := env.enter name (frame.definition.params.zip values)
          have hsame : env.SameFunctions start := .enter name _
          have hplain : start.Plain := hbodies.of_sameFunctions hsame
          have hplain' : { start with active := some name }.Plain := hplain
          have hcall : { start with active := some name }.InCall :=
            ⟨name, rfl, hsame.keeps.registered hname⟩
          have hbody := eval_withGlobals hplain' (hbodies name frame hget) hcall fuel globals
          show inCall name (eval fuel frame.definition.body) { start with globals } =
            (inCall name (eval fuel frame.definition.body) start).map _
          unfold inCall
          rw [hbody]
          cases eval fuel frame.definition.body { start with active := some name } with
          | none => rfl
          | some x => rfl

/-- **A running function cannot see globals.** Where no definition stands inside a body or the term, an evaluation
during a call ends with other globals if and only if it ends with the given ones, with the same value or failure; the
arrays, the functions with their tables, and what was printed are the same, and the globals are those it began with.
So what a function makes of given numbers does not depend on the globals, from whatever scope it is called. -/
theorem eval_ignores_globals {env : Env} (hbodies : env.Plain) (fuel : Nat) (globals : Table Float) :
    (∀ term, (∀ d, ¬term.Defines d) → env.InCall →
      eval fuel term { env with globals } =
        (eval fuel term env).map (fun x => (x.1, { x.2 with globals })) ∧
      ∀ r after, eval fuel term env = some (r, after) → after.globals = env.globals) ∧
    ∀ name, env.functions.contains name = true → ∀ values : List Float,
      eval fuel (.call name (values.map .number)) { env with globals } =
        (eval fuel (.call name (values.map .number)) env).map fun x => (x.1, { x.2 with globals }) := by
  constructor
  · intro term hterm hcall
    refine ⟨eval_withGlobals hbodies hterm hcall fuel globals, ?_⟩
    intro r after h
    exact eval_globals_eq hcall h
  · intro name hname values
    exact eval_call_withGlobals hbodies hname values fuel globals

/-- The global `x` is there in one run only. Inside a call of `f` it is unknown all the same, and calling `f` from
outside fails alike. -/
theorem eval_ignores_globals_unknown :
    let env := Env.empty.register ⟨"f", [], .var "x"⟩
    let globals : Table Float := ⟨[("x", Number.ofTruth true)]⟩
    let failed := some (Except.error (RuntimeError.unknownIdentifier "x"))
    (eval 1 (.var "x") { env with globals, active := some "f" }).map Prod.fst = failed ∧
      (eval 2 (.call "f" []) { env with globals }).map Prod.fst = failed := by
  intro env globals failed
  have hterm : ∀ d, ¬Term.Defines d (.var "x") := by
    intro d
    rw [Term.defines_iff_parts (by simp)]
    simp [Term.parts]
  have hbodies : env.Plain := by
    intro name frame hget
    simp only [env, Env.register, Table.get?_insert] at hget
    split at hget
    · cases hget
      exact hterm
    · cases hget
  have hbodies' : { env with active := some "f" }.Plain := hbodies
  have hinside := (eval_ignores_globals hbodies' 1 globals).1 (.var "x") hterm ⟨"f", rfl, rfl⟩
  have houtside := (eval_ignores_globals hbodies 2 globals).2 "f" rfl []
  constructor
  · show (eval 1 (.var "x") { { env with active := some "f" } with globals }).map Prod.fst = failed
    rw [hinside.1]
    rfl
  · show (eval 2 (.call "f" ([].map .number)) { env with globals }).map Prod.fst = failed
    rw [houtside]
    rfl

end Eval
end Abacus
