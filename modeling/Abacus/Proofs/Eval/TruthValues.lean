import Abacus.Command
import Abacus.Proofs.Eval.Logic
import Abacus.Proofs.Eval.Storing

/-!
# `Eval.TruthValues` — what looks like a truth value is one

Whether a value is shown as `true` or `false` is decided by the **shape** of its term and not by the value. So a term
of that shape has to give one of the two numbers that stand for truth values, or the text would hide what the value
is. It does, whatever its operands are and do: a comparison makes a truth value of any two numbers, and a logical
operator turns its operands into truth values before it combines them, so that not even the sign of a zero comes
through. An assignment hands on what it binds.

## Contents
- `Term.targets` — the names that a chain of assignments binds;
- `operate_truth`, `assign_shaped` — one operation, one assignment;
- `shaped_gives_truth` — a whole term;
- `shaped_shows_value` — the value, the names and what is shown.
-/

namespace Abacus

/-! ## Names -/

/-- The names that a chain of assignments binds, the first one in front. -/
def Term.targets : Term → List String
  | assign name value => name :: value.targets
  | _ => []

namespace Env

/-- A number that is bound is in scope, and every other name reads as before. -/
theorem scalar?_setScalar (env : Env) (name other : String) (value : Float) :
    (env.setScalar name value).scalar? other = if other = name then some value else env.scalar? other := by
  cases hrunning : env.running? with
  | none =>
      have hset : env.setScalar name value = { env with globals := env.globals.insert name value } := by
        rw [setScalar, hrunning]
      have hidle : (env.setScalar name value).running? = none := by
        rw [hset]
        exact hrunning
      rw [scalar?, scalar?, scope, scope, hidle, hrunning, hset]
      exact Table.get?_insert env.globals name other value
  | some running =>
      obtain ⟨function, frame⟩ := running
      let bound := { frame with locals := frame.locals.insert name value }
      have hset : env.setScalar name value = { env with functions := env.functions.insert function bound } := by
        rw [setScalar, hrunning]
      have hactive : env.active = some function := by
        unfold running? at hrunning
        split at hrunning
        · cases hrunning
        · next h =>
          obtain ⟨_, -, hpair⟩ := Option.map_eq_some_iff.mp hrunning
          cases hpair
          exact h
      have hcall : (env.setScalar name value).running? = some (function, bound) := by
        rw [hset]
        simp only [running?, hactive, Table.get?_insert, if_true, Option.map_some]
      rw [scalar?, scalar?, scope, scope, hcall, hrunning]
      exact Table.get?_insert frame.locals name other value

end Env

namespace Eval

variable {term : Term} {env after : Env} {value : Float}

/-! ## One step -/

/-- An operator that gives truth values gives one for any operands that it takes. -/
theorem operate_truth {op : Operator} (hop : op.givesTruth = true) {left right : Bool} {x y : Float}
    (h : operate op left right x y = .ok value) : ∃ b, value = Number.ofTruth b := by
  unfold operate at h
  cases hfamily : op.family with
  | arithmetic | unknown => simp [Operator.givesTruth, hfamily] at hop
  | comparison =>
      rw [hfamily] at h
      dsimp only at h
      split at h
      · cases h
      · cases h
        exact ⟨holds op x y, rfl⟩
  | logical =>
      rw [hfamily] at h
      dsimp only at h
      rw [logic_eq] at h
      -- Both operands are truth values, and so is what one of the three operators makes of them.
      split at h
      · split at h <;> cases h <;> exact ⟨_, rfl⟩
      · cases h

theorem binary_operate {op : Operator} {left right : Term}
    (h : Evaluates (.binary op left right) env (.ok value) after) :
    ∃ x y, operate op left.isBoolean right.isBoolean x y = .ok value := by
  obtain ⟨_ | n, heval⟩ := h
  · cases heval
  · change binary (eval n) op left right complain env = _ at heval
    unfold binary at heval
    obtain ⟨x, s₁, -, heval⟩ := bind_eq_ok heval
    obtain ⟨y, s₂, -, heval⟩ := bind_eq_ok heval
    exact ⟨x, y, congrArg Prod.fst (Option.some.inj heval)⟩

/-- What has the shape of a truth value names no array. -/
theorem namedArray?_shaped (h : term.isBooleanShaped = true) (env : Env) : namedArray? env term = none := by
  cases term with
  | var name => cases h
  | _ => rfl

/-- An assignment of such a term binds its value and hands it on. -/
theorem assign_shaped {name : String} (hshape : term.isBooleanShaped = true)
    (h : Evaluates (.assign name term) env (.ok value) after) :
    ∃ mid, Evaluates term env (.ok value) mid ∧ after = mid.setScalar name value := by
  obtain ⟨_ | n, heval⟩ := h
  · cases heval
  · change assign (eval n) name term env = _ at heval
    unfold assign at heval
    split at heval
    · cases hshape
    · rw [env_bind, namedArray?_shaped hshape] at heval
      obtain ⟨result, mid, hvalue, heval⟩ := bind_eq_ok heval
      cases heval
      exact ⟨mid, ⟨n, hvalue⟩, rfl⟩

/-- Printing such a term evaluates it and writes whether its value holds. -/
theorem print_shaped (hshape : term.isBooleanShaped = true) (h : Evaluates term env (.ok value) after)
    {lines : Array String} (hsink : after.sink = .accepting lines) :
    Evaluates (.print term) env (.ok value)
      { after with sink := .accepting (lines.push (truthText (Number.isTruthy value))) } := by
  obtain ⟨n, heval⟩ := h
  refine ⟨n + 1, ?_⟩
  show print (eval n) term env = _
  unfold print
  rw [env_bind, namedArray?_shaped hshape]
  show (eval n term >>= _) env = _
  rw [bind_of_ok heval, valueText, if_pos hshape, bind_apply]
  simp only [write, hsink, Sink.write]
  rfl

/-! ## A whole term -/

/-- The value is a truth value, and all names of a chain of assignments have it. -/
theorem shaped_gives_truth (hshape : term.isBooleanShaped = true) (h : Evaluates term env (.ok value) after) :
    (∃ b, value = Number.ofTruth b) ∧ ∀ name ∈ term.targets, after.scalar? name = some value := by
  induction term using Term.isBooleanShaped.induct generalizing after with
  | case1 b =>
      obtain ⟨_ | n, heval⟩ := h
      · cases heval
      · cases heval
        exact ⟨⟨b, rfl⟩, by simp [Term.targets]⟩
  | case2 op left right =>
      obtain ⟨x, y, hoperate⟩ := binary_operate h
      exact ⟨operate_truth hshape hoperate, by simp [Term.targets]⟩
  | case3 name inner ih =>
      have hinner : inner.isBooleanShaped = true := hshape
      obtain ⟨mid, hmid, rfl⟩ := assign_shaped hinner h
      obtain ⟨htruth, hnames⟩ := ih hinner hmid
      refine ⟨htruth, fun other hother => ?_⟩
      rw [Env.scalar?_setScalar]
      split
      · rfl
      · next hne => exact hnames other ((List.mem_cons.mp hother).resolve_left hne)
  | case4 term hboolean hbinary hassign =>
      rw [Term.isBooleanShaped.eq_4 term hboolean hbinary hassign] at hshape
      cases hshape

/-- A chain of assignments is not shown as an array: its first name is bound to a number. -/
theorem resultText_shaped (hshape : term.isBooleanShaped = true)
    (hnames : ∀ name ∈ term.targets, after.scalar? name = some value) :
    Command.resultText after term value = truthText (Number.isTruthy value) := by
  have htext : valueText term value = truthText (Number.isTruthy value) := by rw [valueText, if_pos hshape]
  unfold Command.resultText
  split
  · next name inner =>
    have hname : after.scalar? name = some value := hnames name (by simp [Term.targets])
    rw [Env.wholeArray?, hname]
    exact htext
  · exact htext

theorem truth_of_shown (b : Bool) :
    Number.ofTruth b = if truthText (Number.isTruthy (Number.ofTruth b)) = "true" then 1 else 0 := by
  cases b <;> decide +kernel

/-- **What looks like a truth value is one.** A term that has the shape of a truth value gives the number zero or the
number one, bit for bit, whenever it gives a value. Afterwards every name that it assigns reads as that value. What a
calculation shows is `true` or `false`, and so is the line that `print` writes; either text tells the value. -/
theorem shaped_shows_value (hshape : term.isBooleanShaped = true) (h : Evaluates term env (.ok value) after) :
    (value = 0 ∧ value.toBits = 0 ∨ value = 1 ∧ value.toBits = 0x3FF0000000000000) ∧
    (∀ name ∈ term.targets, after.scalar? name = some value) ∧
    ∃ shown ∈ ["true", "false"],
      Command.resultText after term value = shown ∧
      (∀ lines, after.sink = .accepting lines →
        Evaluates (.print term) env (.ok value) { after with sink := .accepting (lines.push shown) }) ∧
      value = if shown = "true" then 1 else 0 := by
  obtain ⟨⟨b, rfl⟩, hnames⟩ := shaped_gives_truth hshape h
  refine ⟨?_, hnames, truthText (Number.isTruthy (Number.ofTruth b)), ?_, resultText_shaped hshape hnames,
    fun lines hsink => print_shaped hshape h hsink, truth_of_shown b⟩
  · cases b
    · exact .inl ⟨rfl, by decide +kernel⟩
    · exact .inr ⟨rfl, by decide +kernel⟩
  · cases Number.isTruthy (Number.ofTruth b) <;> decide +kernel

/-- In a call of `f` with a negative zero for `x`, the chain `a = b = (x | false)` is boolean-shaped: `a` and `b` are
the positive zero afterwards, and `false` is shown. -/
theorem shaped_shows_value_negative_zero :
    let frame : Frame := ⟨⟨"f", ["x"], .number 0⟩, (∅ : Table Float).insert "x" (-0.0), true⟩
    let env := { Env.empty with functions := (∅ : Table Frame).insert "f" frame, active := some "f" }
    let term : Term := .assign "a" (.assign "b" (.binary .or (.var "x") (.boolean false)))
    term.isBooleanShaped = true ∧
    ∃ after, Evaluates term env (.ok 0) after ∧ after.scalar? "a" = some 0 ∧ after.scalar? "b" = some 0 ∧
      Command.resultText after term 0 = "false" := by
  intro frame env term
  have hor : eval 3 (.binary .or (.var "x") (.boolean false)) env = some (.ok 0, env) := by
    show some (logic .or (-0.0) 0, env) = _
    rw [logic_eq]
    rfl
  have hinner : eval 4 (.assign "b" (.binary .or (.var "x") (.boolean false))) env =
      some (.ok 0, env.setScalar "b" 0) := by
    show assignScalar (eval 3) "b" (.binary .or (.var "x") (.boolean false)) env = _
    rw [assignScalar, bind_of_ok hor]
    rfl
  have heval : Evaluates term env (.ok 0) ((env.setScalar "b" 0).setScalar "a" 0) := by
    refine ⟨5, ?_⟩
    show assignScalar (eval 4) "a" (.assign "b" (.binary .or (.var "x") (.boolean false))) env = _
    rw [assignScalar, bind_of_ok hinner]
    rfl
  obtain ⟨-, hnames, shown, hmem, hshown, -, hvalue⟩ := shaped_shows_value rfl heval
  have hfalse : shown = "false" := by
    rcases List.mem_cons.mp hmem with rfl | hmem
    · exact absurd hvalue (by decide +kernel)
    · exact List.mem_singleton.mp hmem
  exact ⟨rfl, _, heval, hnames "a" (by decide), hnames "b" (by decide), hshown.trans hfalse⟩

end Eval
end Abacus
