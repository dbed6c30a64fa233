import Abacus.Proofs.Grammar.ProgramReading

/-!
# `Parse.Effects` — what an action leaves, also when it fails

The grammar describes what is read by an action that succeeds. An action that fails has read something, too, and what it
has learnt and queued by then stays. A relation between the states before and behind an action is shown for all rules at
once: it has to hold for each step (`Path`), and the rules are followed step by step.

The steps are to pass a token, to learn a name and to read a complete definition. Nothing else queues anything: a
definition that fails has queued what the statements in its body have queued.

## Contents
- `Leads`, `LeadsToFailure` — a relation between the states before and behind an action;
- `Path` — relations that one can follow step by step;
- `Path.expression`, `Path.statement` — the rules.
-/

namespace Abacus
namespace Parse

open Grammar (Gathers definition_gathers statementStep_gathers)

variable {α β : Type} {R : State → State → Prop}

/-- The relation holds between the states before and behind the action, whether it succeeds or fails. -/
def Leads (R : State → State → Prop) (p : Parse α) : Prop := ∀ s, R s (p s).2

/-- The relation holds between the states before and behind the action where it fails. -/
def LeadsToFailure (R : State → State → Prop) (p : Parse α) : Prop :=
  ∀ s e u, p s = (.error e, u) → R s u

/-- A relation that holds for passing a token, for learning a name and for reading a definition, and for several steps
if it does for each. -/
structure Path (R : State → State → Prop) : Prop where
  refl : ∀ s, R s s
  trans : ∀ {s t u}, R s t → R t u → R s u
  next : ∀ s : State, R s s.next
  learn : ∀ (s : State) name, R s { s with known := name :: s.known }
  define : ∀ {s : State} {name params body known defs rest},
    Grammar.Statement s.known s.tokens (.define name params body) known defs rest → R s (s.behind known defs rest)

/-- What is read as a definition is one. -/
theorem definition_eq_ok {p : Parse Term} {s u : State} {n : Term} (h : definition p s = (.ok n, u)) :
    ∃ name params body, n = .define name params body := by
  obtain ⟨_, _, -, h⟩ := bind_eq_ok.mp h
  obtain ⟨_, _, -, h⟩ := bind_eq_ok.mp h
  obtain ⟨_, _, -, h⟩ := bind_eq_ok.mp h
  obtain ⟨_, _, -, h⟩ := bind_eq_ok.mp h
  obtain ⟨_, _, -, h⟩ := bind_eq_ok.mp h
  obtain ⟨_, _, -, h⟩ := bind_eq_ok.mp h
  obtain ⟨_, _, -, h⟩ := bind_eq_ok.mp h
  cases h
  exact ⟨_, _, _, rfl⟩

namespace Path

variable (hR : Path R)

include hR

/-! ## Sequences -/

protected theorem pure (a : α) : Leads R (pure a : Parse α) := hR.refl

theorem unexpected : Leads R (unexpected : Parse α) := hR.refl

/-- The relation is followed as far as the actions go: over both, or over the first one that fails. -/
theorem bind {p : Parse α} {f : α → Parse β} (hp : Leads R p) (hf : ∀ a, Leads R (f a)) : Leads R (p >>= f) := by
  intro s
  have hfirst := hp s
  rw [bind_apply]
  split
  · next a t heq =>
    rw [heq] at hfirst
    exact hR.trans hfirst (hf a t)
  · next e t heq =>
    rw [heq] at hfirst
    exact hfirst

/-- A sequence fails in its first action or in its second one, and what precedes the second has only to lead on. -/
theorem bind_fails {p : Parse α} {f : α → Parse β} (hp : Leads R p) (hf : ∀ a, LeadsToFailure R (f a)) :
    LeadsToFailure R (p >>= f) := by
  intro s e u h
  have hfirst := hp s
  rw [bind_apply] at h
  split at h
  · next a t heq =>
    rw [heq] at hfirst
    exact hR.trans hfirst (hf a t e u h)
  · next e' t heq =>
    rw [heq] at hfirst
    cases h
    exact hfirst

/-- Looking at a token changes nothing, so only what comes next counts. -/
theorem look {f : Token → Parse β} (hf : ∀ t, Leads R (f t)) : Leads R (look >>= f) := hR.bind hR.refl hf

theorem advance {f : Unit → Parse β} (hf : Leads R (f ())) : Leads R (advance >>= f) :=
  hR.bind hR.next fun _ => hf

/-- Either a token is passed, or the state stays as it is. -/
theorem accept (test : Token → Bool) : Leads R (accept test) := by
  intro s
  rw [accept_apply]
  split
  · exact hR.next s
  · exact hR.refl s

/-- Both ways to go on lead on, whether or not the token was passed. -/
theorem ifAccepted {test : Token → Bool} {p q : Parse β} (hp : Leads R p) (hq : Leads R q) :
    Leads R (Parse.accept test >>= fun passed => if passed = true then p else q) := by
  refine hR.bind (hR.accept test) fun passed => ?_
  split
  · exact hp
  · exact hq

/-- A token that is refused is not passed. -/
theorem expect (test : Token → Bool) : Leads R (expect test) := by
  intro s
  rw [expect_apply]
  split
  · exact hR.next s
  · exact hR.refl s

/-- A bound that runs out leaves the state alone, so the relation holds of every number of rounds. -/
theorem recurse {step : (α → Parse β) → α → Parse β}
    (h : ∀ f : α → Parse β, (∀ a, Leads R (f a)) → ∀ a, Leads R (step f a)) (a : α) : Leads R (recurse step a) := by
  intro s
  exact recurseWithin_induction (P := fun f => ∀ a, Leads R (f a)) (fun _ => hR.unexpected) h s.tokens a s

/-! ## Lists -/

theorem name : Leads R name := hR.bind (hR.expect _) fun t => hR.pure t.text

/-- Each round reads an item and a comma, or an item and what closes the list. -/
theorem items {closing : Token.Kind} {item : Parse α} (hitem : Leads R item) : Leads R (items closing item) := by
  refine hR.recurse (fun more hmore _ => ?_) ()
  refine hR.bind hitem fun head => hR.ifAccepted ?_ ?_
  · exact hR.bind (hmore ()) fun tail => hR.pure (head :: tail)
  · exact hR.bind (hR.expect _) fun _ => hR.pure [head]

theorem commaList {closing : Token.Kind} {item : Parse α} (hitem : Leads R item) :
    Leads R (commaList closing item) :=
  hR.ifAccepted (hR.pure []) (hR.items hitem)

/-! ## Expressions -/

section Expressions

variable {p : Parse Term} (hp : Leads R p)

include hp

theorem array : Leads R (array p) :=
  hR.bind (hR.expect _) fun _ => hR.bind (hR.commaList hp) fun _ => hR.pure _

/-- Asking whether the name is known changes nothing, and the ways to go on pass tokens only. -/
theorem named : Leads R (named p) := by
  refine hR.bind hR.name fun name => hR.ifAccepted ?_ ?_
  · exact hR.bind (hR.commaList hp) fun _ => hR.pure _
  · refine hR.bind (fun s => hR.refl s) fun known => ?_
    split
    · refine hR.look fun t => ?_
      split
      · exact hR.pure _
      · exact hR.unexpected
    · refine hR.ifAccepted ?_ (hR.pure _)
      exact hR.bind hp fun _ => hR.bind (hR.expect _) fun _ => hR.pure _

/-- Each kind of operand passes its first token, and whatever is inside it leads on. -/
theorem operand : Leads R (operand p) := by
  refine hR.look fun t => ?_
  split
  · refine hR.look fun t => ?_
    split
    · exact hR.advance (hR.pure _)
    · exact hR.unexpected
  · exact hR.advance (hR.pure _)
  · exact hR.named hp
  · exact hR.advance (hR.bind hp fun inner => hR.bind (hR.expect _) fun _ => hR.pure inner)
  · exact hR.array hp
  · exact hR.unexpected

/-- Operators and operands in turn. -/
theorem chain (level : List Operator) : Leads R (chain level p) := by
  refine hR.bind hp fun first => hR.recurse (fun more hmore left => hR.look fun t => ?_) first
  split
  · exact hR.advance (hR.bind hp fun right => hmore _)
  · exact hR.pure left

/-- Each level of the ladder is a chain of the next one. -/
theorem ladder : ∀ L : List (List Operator), Leads R (ladder L p)
  | [] => hp
  | level :: tighter => hR.chain (ladder tighter) level

/-- A target that cannot be assigned to is a failure behind the left side, which has been read. -/
theorem assignTo (target : Term) : Leads R (assignTo p target) := by
  refine hR.look fun t => ?_
  split
  · split
    · exact hR.advance (hR.bind hp fun _ => hR.pure _)
    · exact hR.advance (hR.bind hp fun _ => hR.pure _)
    · exact hR.unexpected
  · exact hR.pure target

theorem assignment : Leads R (assignment p) :=
  hR.bind (hR.ladder (hR.operand hp) levels) fun target => hR.assignTo hp target

end Expressions

/-- A failure in any depth leaves what was read in front of it. -/
theorem expression : Leads R expression := hR.recurse (fun _ hmore _ => hR.assignment (hmore ())) ()

theorem factor : Leads R factor := hR.chain (hR.operand hR.expression) factorLevel

/-- The operators of a condition are read in rounds, like those of a chain. -/
theorem condition : Leads R condition := by
  refine hR.bind hR.factor fun first => hR.recurse (fun more hmore left => hR.look fun t => ?_) first
  split
  · exact hR.advance (hR.bind hR.factor fun right => hmore _)
  · exact hR.pure left

/-! ## Statements -/

theorem semicolon : Leads R semicolon := hR.bind (hR.expect _) fun _ => hR.pure ()

theorem optionalSemicolon : Leads R optionalSemicolon := hR.bind (hR.accept _) fun _ => hR.pure ()

theorem printStatement : Leads R printStatement :=
  hR.advance (hR.bind hR.expression fun _ => hR.bind hR.semicolon fun _ => hR.pure _)

theorem returnStatement : Leads R returnStatement := by
  refine hR.advance (hR.ifAccepted (hR.pure _) ?_)
  exact hR.bind hR.expression fun _ => hR.bind hR.semicolon fun _ => hR.pure _

theorem arrayStatement : Leads R arrayStatement :=
  hR.bind (hR.array hR.expression) fun _ => hR.bind hR.optionalSemicolon fun _ => hR.pure _

/-- Behind an expression only a semicolon is passed, if it is there. -/
theorem expressionStatement : Leads R expressionStatement := by
  refine hR.bind hR.expression fun n => ?_
  split
  · exact hR.bind hR.semicolon fun _ => hR.pure n
  · exact hR.bind hR.optionalSemicolon fun _ => hR.pure n

section Statements

variable {p : Parse Term} (hp : Leads R p)

include hp

/-- The statements of a block are read in rounds, each of which leads on. -/
theorem block : Leads R (block p) := by
  have hstatements : Leads R (statements p) := by
    refine hR.recurse (fun more hmore _ => ?_) ()
    refine hR.bind hp fun head => hR.ifAccepted (hR.pure [head]) ?_
    exact hR.bind (hmore ()) fun tail => hR.pure (head :: tail)
  exact hR.bind (hR.expect _) fun _ => hR.bind hstatements fun _ => hR.pure _

/-- A branch is another `if` or a block. -/
theorem elseClause : Leads R (elseClause p) := by
  refine hR.look fun t => ?_
  split
  · exact hR.bind hp fun _ => hR.pure _
  · exact hR.bind (hR.block hp) fun _ => hR.pure _

/-- A branch that fails has had its condition and its block read. -/
theorem ifStatement : Leads R (ifStatement p) := by
  refine hR.advance (hR.bind hR.condition fun _ => hR.bind (hR.block hp) fun _ => hR.ifAccepted ?_ (hR.pure _))
  exact hR.bind (hR.elseClause hp) fun _ => hR.pure _

theorem whileStatement : Leads R (whileStatement p) :=
  hR.advance (hR.bind hR.condition fun _ => hR.bind (hR.block hp) fun _ => hR.pure _)

/-- A definition that fails has queued nothing of its own. -/
theorem definition_fails : LeadsToFailure R (definition p) := by
  refine hR.bind_fails (show Leads R Parse.advance from hR.next) fun _ => ?_
  refine hR.bind_fails hR.name fun name => ?_
  refine hR.bind_fails (fun s => hR.learn s name) fun _ => ?_
  refine hR.bind_fails (hR.expect _) fun _ => ?_
  refine hR.bind_fails (hR.commaList hR.name) fun _ => ?_
  refine hR.bind_fails (hR.block hp) fun _ => ?_
  -- queueing is the last step, and it does not fail
  intro s e u h
  cases h

variable (hgathers : Gathers p Grammar.Statement)

include hgathers

/-- A definition that succeeds is complete. -/
theorem definition {s : State} (hword : s.current.isWord "def" = true) : R s (definition p s).2 := by
  cases h : Parse.definition p s with
  | mk r u =>
      cases r with
      | error e => exact hR.definition_fails hp s e u h
      | ok n =>
          have hts := State.tokens_eq_cons ((WordTest.isWord _).refuses hword)
          obtain ⟨known, defs, rest, rfl, hstatement⟩ := definition_gathers hgathers hts hword h
          obtain ⟨name, params, body, rfl⟩ := definition_eq_ok h
          exact hR.define hstatement

/-- The first word decides, and a definition is the one kind of statement that is taken as a whole. -/
theorem statementStep : Leads R (statementStep p) := by
  intro s
  unfold Parse.statementStep
  rw [look_bind]
  split
  · exact hR.arrayStatement s
  · split
    · exact hR.ifStatement hp s
    · split
      · exact hR.whileStatement hp s
      · split
        · exact hR.printStatement s
        · split
          · next hword => exact hR.definition hp hgathers hword
          · split
            · exact hR.returnStatement s
            · exact hR.expressionStatement s

end Statements

/-- Statements, whether they are read or not. -/
theorem statement : Leads R statement := by
  let step (statement : Unit → Parse Term) (_ : Unit) : Parse Term := Parse.statementStep (statement ())
  -- a round leads on and gathers, given that the rounds inside it do
  have within (bound : List Token) :
      Leads R (recurseWithin step bound ()) ∧ Gathers (recurseWithin step bound ()) Grammar.Statement := by
    refine recurseWithin_induction (P := fun f => Leads R (f ()) ∧ Gathers (f ()) Grammar.Statement) ?_ ?_ bound
    · exact ⟨hR.unexpected, fun _ _ _ h => by cases h⟩
    · intro f hf
      exact ⟨hR.statementStep hf.1 hf.2, statementStep_gathers hf.2⟩
  intro s
  exact (within s.tokens).1 s

end Path
end Parse
end Abacus
