import Abacus.Proofs.Eval.WellFormed

/-!
# `Eval.Bodies` — states that differ in the bodies of functions

Two programs that are to do the same need not be the same, and then the bodies of their functions differ. `Env.Upto`
says that two states are equal but for that: their functions have the same names, parameters, local numbers and flags,
in the same order, and their bodies are related. No action of the evaluator takes this away, so it makes a simulation
(`uptoBodies`) for any relation between bodies. What is left to show is that related terms do the same.

## Contents
- `Table.Related` — tables with the same names and related values;
- `Definition.Upto`, `Frame.Upto`, `Env.Upto` — equal but for bodies;
- `uptoBodies` — the simulation.
-/

namespace Abacus

/-! ## Tables -/

namespace Table

variable {α β : Type} {r : α → β → Prop} {table : Table α} {table' : Table β}

/-- The same names in the same order, with related values. -/
def Related (r : α → β → Prop) (table : Table α) (table' : Table β) : Prop :=
  List.Forall₂ (fun entry entry' => entry'.1 = entry.1 ∧ r entry.2 entry'.2) table.entries table'.entries

namespace Related

/-- Tables with related values have them under the same names. -/
protected theorem get? (h : Related r table table') (name : String) :
    Option.Rel r (table.get? name) (table'.get? name) := by
  obtain ⟨entries⟩ := table
  obtain ⟨entries'⟩ := table'
  change List.Forall₂ _ entries entries' at h
  show Option.Rel r (findEntry name entries) (findEntry name entries')
  induction h with
  | nil => exact .none
  | cons hentry _ ih =>
      rw [findEntry, findEntry, hentry.1]
      split
      · exact .some hentry.2
      · exact ih

/-- A name that is bound anew is bound at the same place in both tables. -/
protected theorem insert (h : Related r table table') (name : String) {value : α} {value' : β}
    (hvalue : r value value') : Related r (table.insert name value) (table'.insert name value') := by
  obtain ⟨entries⟩ := table
  obtain ⟨entries'⟩ := table'
  change List.Forall₂ _ entries entries' at h
  show List.Forall₂ _ (insertEntry name value entries) (insertEntry name value' entries')
  induction h with
  | nil => exact .cons ⟨rfl, hvalue⟩ .nil
  | cons hentry hrest ih =>
      rw [insertEntry, insertEntry, hentry.1]
      split
      · exact .cons ⟨rfl, hvalue⟩ hrest
      · exact .cons hentry ih

/-- A change that keeps values related keeps the tables related. -/
protected theorem modify (h : Related r table table') (name : String) {change : α → α} {change' : β → β}
    (hchange : ∀ {value value'}, r value value' → r (change value) (change' value')) :
    Related r (table.modify name change) (table'.modify name change') := by
  have hget := h.get? name
  unfold Table.modify
  generalize table.get? name = value?, table'.get? name = value'? at hget
  cases hget with
  | none => exact h
  | some hvalue => exact h.insert name (hchange hvalue)

end Related
end Table

/-! ## States -/

section Upto

variable {same : Term → Term → Prop}

/-- Definitions that differ in their bodies only, which are related. -/
structure Definition.Upto (same : Term → Term → Prop) (d d' : Definition) : Prop where
  name : d'.name = d.name
  params : d'.params = d.params
  body : same d.body d'.body

/-- Registered functions that differ in their bodies only. -/
structure Frame.Upto (same : Term → Term → Prop) (frame frame' : Frame) : Prop where
  definition : frame.definition.Upto same frame'.definition
  locals : frame'.locals = frame.locals
  called : frame'.called = frame.called

/-- States that differ in the bodies of their functions only. -/
structure Env.Upto (same : Term → Term → Prop) (a b : Env) : Prop where
  globals : b.globals = a.globals
  arrays : b.arrays = a.arrays
  functions : Table.Related (Frame.Upto same) a.functions b.functions
  active : b.active = a.active
  sink : b.sink = a.sink

namespace Env.Upto

variable {a b : Env}

protected theorem flip (h : Env.Upto same a b) : Env.Upto (fun t t' => same t' t) b a where
  globals := h.globals.symm
  arrays := h.arrays.symm
  functions := by
    refine h.functions.flip.imp fun entry entry' hentry => ⟨hentry.1.symm, ?_⟩
    obtain ⟨⟨hname, hparams, hbody⟩, hlocals, hcalled⟩ := hentry.2
    exact ⟨⟨hname.symm, hparams.symm, hbody⟩, hlocals.symm, hcalled.symm⟩
  active := h.active.symm
  sink := h.sink.symm

/-- The call that is running is one of the same function. -/
theorem running? (h : Env.Upto same a b) :
    Option.Rel (fun x y => y.1 = x.1 ∧ Frame.Upto same x.2 y.2) a.running? b.running? := by
  unfold Env.running?
  rw [h.active]
  cases a.active with
  | none => exact .none
  | some name =>
      have hget := h.functions.get? name
      dsimp only
      generalize a.functions.get? name = frame?, b.functions.get? name = frame'? at hget
      cases hget with
      | none => exact .none
      | some hframe => exact .some ⟨rfl, hframe⟩

/-- Bodies are not looked at by reading, only frames are, and these have the same locals. -/
protected theorem scalar? (h : Env.Upto same a b) (name : String) : b.scalar? name = a.scalar? name := by
  have hrunning := h.running?
  unfold Env.scalar? Env.scope
  generalize a.running? = x?, b.running? = y? at hrunning
  cases hrunning with
  | none => rw [h.globals]
  | some hxy =>
      dsimp only
      rw [hxy.2.locals]

theorem definition? (h : Env.Upto same a b) (name : String) :
    Option.Rel (Definition.Upto same) (a.definition? name) (b.definition? name) := by
  have hget := h.functions.get? name
  unfold Env.definition?
  generalize a.functions.get? name = frame?, b.functions.get? name = frame'? at hget
  cases hget with
  | none => exact .none
  | some hframe => exact .some hframe.definition

/-- The functions change, to others that are related. -/
theorem withFunctions (h : Env.Upto same a b) {functions functions' : Table Frame}
    (hfunctions : Table.Related (Frame.Upto same) functions functions') :
    Env.Upto same { a with functions } { b with functions := functions' } :=
  ⟨h.globals, h.arrays, hfunctions, h.active, h.sink⟩

/-- A name is written where it is found, which is the same scope in both states. -/
protected theorem setScalar (h : Env.Upto same a b) (name : String) (value : Float) :
    Env.Upto same (a.setScalar name value) (b.setScalar name value) := by
  have hrunning := h.running?
  unfold Env.setScalar
  generalize a.running? = x?, b.running? = y? at hrunning
  cases hrunning with
  | none => exact ⟨by simp only [h.globals], h.arrays, h.functions, h.active, h.sink⟩
  | @some x y hxy =>
      obtain ⟨hfunction, hframe⟩ := hxy
      dsimp only
      rw [hfunction]
      refine h.withFunctions (h.functions.insert x.1 ⟨hframe.definition, ?_, hframe.called⟩)
      simp only [hframe.locals]

/-- A definition is registered in both states, or gets a new copy of the same globals in both. -/
protected theorem define (h : Env.Upto same a b) {d d' : Definition} (hd : d.Upto same d') :
    Env.Upto same (a.define d) (b.define d') := by
  have hget := h.functions.get? d.name
  unfold Env.define
  rw [hd.name]
  generalize a.functions.get? d.name = frame?, b.functions.get? d.name = frame'? at hget
  cases hget with
  | none =>
      unfold Env.register
      rw [hd.name]
      exact h.withFunctions (h.functions.insert d.name ⟨hd, h.globals, rfl⟩)
  | some hframe =>
      exact h.withFunctions (h.functions.insert d.name ⟨hframe.definition, h.globals, hframe.called⟩)

/-- The locals of a call are replaced, and its body stays what it is. -/
protected theorem enter (h : Env.Upto same a b) (function : String) (bindings : List (String × Float)) :
    Env.Upto same (a.enter function bindings) (b.enter function bindings) := by
  refine h.withFunctions (h.functions.modify function fun hframe => ⟨hframe.definition, ?_, rfl⟩)
  simp only [hframe.locals]

end Env.Upto

/-! ## The simulation -/

/-- **No action can tell what the bodies of functions are**, if related bodies do the same. -/
def Eval.uptoBodies (same : Term → Term → Prop) : Eval.Simulation where
  toLaw := Eval.keepsLaw (fun _ => True) (fun _ _ => trivial) (fun _ _ => trivial)
  sim := Env.Upto same
  alike := Definition.Upto same
  alike_params h := h.params
  sim_scalar? h := h.scalar?
  sim_array? h name := by rw [Env.array?, Env.array?, h.arrays]
  sim_definition? h := h.definition?
  sim_sink h := h.sink
  sim_setScalar h := h.setScalar
  sim_bindArray h name elements := ⟨h.globals, by simp only [Env.bindArray, h.arrays], h.functions, h.active, h.sink⟩
  sim_define h _ hd := h.define hd
  sim_enter h := h.enter
  sim_write h _ := ⟨h.globals, h.arrays, h.functions, h.active, rfl⟩
  sim_call h _ := ⟨h.globals, h.arrays, h.functions, rfl, h.sink⟩
  sim_leave h _ h' := ⟨h'.globals, h'.arrays, h'.functions, h.active, h'.sink⟩

end Upto
end Abacus
