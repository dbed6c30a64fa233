import Abacus.Proofs.Eval.WellFormed

/-!
# `Eval.Functions` — evaluation registers nothing new

The definitions inside a statement are registered before it is evaluated, and so are those inside the bodies of
registered functions (`Env.Closed`). So evaluating a definition finds its function registered: the names of the
functions are the same before and after.

More fuel changes nothing about an evaluation that has ended.
-/

namespace Abacus

/-- The definitions inside the bodies of registered functions are registered, too. -/
def Env.Closed (env : Env) : Prop :=
  ∀ name frame, env.functions.get? name = some frame →
    ∀ d, frame.definition.body.Defines d → env.functions.contains d.name = true

/-- Nothing is lost, and no function is new. -/
structure Env.SameFunctions (before after : Env) : Prop where
  keeps : before.Keeps after
  old : ∀ name, after.functions.contains name = true → before.functions.contains name = true

namespace Env.SameFunctions

variable {a b c env : Env}

protected theorem refl (env : Env) : env.SameFunctions env := ⟨.refl env, fun _ h => h⟩

protected theorem trans (h : a.SameFunctions b) (h' : b.SameFunctions c) : a.SameFunctions c :=
  ⟨h.keeps.trans h'.keeps, fun name hname => h.old name (h'.old name hname)⟩

/-- The same names are those of functions. -/
theorem contains_eq (h : a.SameFunctions b) (name : String) :
    b.functions.contains name = a.functions.contains name := by
  rw [Bool.eq_iff_iff]
  exact ⟨h.old name, h.keeps.registered⟩

/-- A registered function changes its frame, and nothing else. -/
theorem replace {function : String} {frame frame' : Frame}
    (hget : env.functions.get? function = some frame) (hdef : frame'.definition = frame.definition)
    (hcalled : frame.called = true → frame'.called = true) :
    env.SameFunctions { env with functions := env.functions.insert function frame' } := by
  refine ⟨.replace_frame hget hdef hcalled, fun name hname => ?_⟩
  by_cases hsame : name = function
  · subst hsame
    exact Table.contains_iff.mpr ⟨frame, hget⟩
  · simpa [Table.contains, hsame] using hname

/-- A frame whose local is written keeps its definition. -/
theorem setScalar (name : String) (value : Float) : env.SameFunctions (env.setScalar name value) := by
  refine ⟨.setScalar name value, fun other hother => ?_⟩
  unfold Env.setScalar at hother
  split at hother
  · next function frame hrunning =>
    let frame' := { frame with locals := frame.locals.insert name value }
    have hsame : env.SameFunctions { env with functions := env.functions.insert function frame' } :=
      replace (Env.get?_of_running? hrunning) rfl id
    exact hsame.old other hother
  · exact hother

/-- Entering a call replaces locals, and no body. -/
theorem enter (function : String) (bindings : List (String × Float)) :
    env.SameFunctions (env.enter function bindings) := by
  refine ⟨.enter function bindings, fun name hname => ?_⟩
  unfold Env.enter at hname
  rw [Table.contains, Table.get?_modify] at hname
  by_cases hsame : name = function
  · subst hsame
    simpa [Table.contains] using hname
  · simpa [Table.contains, hsame] using hname

/-- A definition whose function is registered makes no function new. -/
theorem define {d : Definition} (h : env.functions.contains d.name = true) :
    env.SameFunctions (env.define d) := by
  obtain ⟨frame, hget⟩ := Table.contains_iff.mp h
  unfold Env.define
  rw [hget]
  exact replace hget rfl id

/-- A function that is registered afterwards has the definition it had before. -/
theorem definition_eq (h : a.SameFunctions b) {name : String} {frame : Frame}
    (hget : b.functions.get? name = some frame) :
    ∃ frame₀, a.functions.get? name = some frame₀ ∧ frame.definition = frame₀.definition := by
  obtain ⟨frame₀, hget₀⟩ := Table.contains_iff.mp (h.old name (Table.contains_iff.mpr ⟨frame, hget⟩))
  obtain ⟨frame', hget', hdef, -⟩ := h.keeps.functions name frame₀ hget₀
  rw [hget] at hget'
  cases hget'
  exact ⟨frame₀, hget₀, hdef⟩

theorem definition?_eq (h : a.SameFunctions b) (name : String) : b.definition? name = a.definition? name := by
  cases hget : b.functions.get? name with
  | none =>
      have hnone : a.functions.contains name = false := by
        rw [← h.contains_eq, Table.contains, hget]
        rfl
      rw [← isSome_definition?, Option.isSome_eq_false_iff, Option.isNone_iff_eq_none] at hnone
      rw [hnone, Env.definition?, hget]
      rfl
  | some frame =>
      obtain ⟨frame₀, hget₀, hdef⟩ := h.definition_eq hget
      rw [definition?_eq_some.mpr ⟨frame, hget, rfl⟩, definition?_eq_some.mpr ⟨frame₀, hget₀, hdef.symm⟩]

/-- Bodies that are the same define the same functions inside. -/
theorem closed (h : a.SameFunctions b) (ha : a.Closed) : b.Closed := by
  intro name frame hget d hd
  obtain ⟨frame₀, hget₀, hdef⟩ := h.definition_eq hget
  rw [hdef] at hd
  exact h.keeps.registered (ha name frame₀ hget₀ d hd)

end Env.SameFunctions

/-- The bodies of all registered functions have the property. -/
def Env.BodiesHave (P : Term → Prop) (env : Env) : Prop :=
  ∀ name frame, env.functions.get? name = some frame → P frame.definition.body

namespace Env.BodiesHave

variable {P : Term → Prop} {env after : Env}

theorem of_sameFunctions (h : env.BodiesHave P) (hsame : env.SameFunctions after) : after.BodiesHave P := by
  intro name frame hget
  obtain ⟨frame₀, hget₀, hdef⟩ := hsame.definition_eq hget
  rw [hdef]
  exact h name frame₀ hget₀

/-- A registered body is one more to ask for. -/
theorem register (h : env.BodiesHave P) {d : Definition} (hd : P d.body) : (env.register d).BodiesHave P := by
  intro name frame hget
  rw [Env.register, Table.get?_insert] at hget
  split at hget
  · cases hget
    exact hd
  · exact h name frame hget

/-- Evaluating a definition brings its own body, if any. -/
theorem define (h : env.BodiesHave P) {d : Definition} (hd : P d.body) : (env.define d).BodiesHave P := by
  cases hregistered : env.functions.contains d.name with
  | true => exact h.of_sameFunctions (.define hregistered)
  | false =>
      have hget : env.functions.get? d.name = none := by
        simpa [Table.contains] using hregistered
      rw [Env.define, hget]
      exact h.register hd

end Env.BodiesHave

namespace Eval

/-- The law of closed states: a term whose definitions are registered makes no function new. -/
def functionsLaw : Law where
  allows term env := env.Closed ∧ ∀ d, term.Defines d → env.functions.contains d.name = true
  rel := Env.SameFunctions
  keeps h := h.keeps
  refl := .refl
  trans := .trans
  stays h hrel := ⟨hrel.closed h.1, fun d hd => hrel.keeps.registered (h.2 d hd)⟩
  part h hpart := ⟨h.1, fun d hd => h.2 d (.part (Term.mem_parts_of_exposed hpart) hd)⟩
  body {name _ frame a b} bindings h hget hrel := by
    have henter : a.SameFunctions (b.enter name bindings) := hrel.trans (.enter name bindings)
    exact ⟨henter.closed h.1, fun d hd => henter.keeps.registered (h.1 name frame hget d hd)⟩
  setScalar result _ := .setScalar _ result
  bindArray _ name elements := ⟨.bindArray name elements, fun _ h => h⟩
  define {name params body env} h := .define (h.2 { name, params, body } .refl)
  enter _ := .enter
  write _ sink := ⟨.write sink, fun _ h => h⟩
  leave _ h := ⟨.leave h.keeps, h.old⟩

/-- **Evaluation registers nothing new** if the definitions it can meet are registered. -/
theorem eval_sameFunctions {env after : Env} {fuel : Nat} {term : Term}
    {r : Except RuntimeError Float} (hclosed : env.Closed)
    (hterm : ∀ d, term.Defines d → env.functions.contains d.name = true)
    (h : eval fuel term env = some (r, after)) : env.SameFunctions after :=
  (eval_maintains (L := functionsLaw) (Nat.le_refl fuel) ⟨hclosed, hterm⟩ h).2

/-- An evaluation that has ended ends the same with more fuel. -/
theorem eval_mono {n m : Nat} (hnm : n ≤ m) {term : Term} {env : Env}
    {x : Except RuntimeError Float × Env} (h : eval n term env = some x) :
    eval m term env = some x := by
  let law := keepsLaw (fun _ => True) (fun _ _ => trivial) (fun _ _ => trivial)
  exact (eval_maintains (L := law) hnm trivial h).1

end Eval
end Abacus
