import Abacus.Proofs.Eval.Moves

/-!
# `Eval.Output` — lines are only ever appended

Nothing that is evaluated reads the lines that were printed before. So two runs that differ in these lines alone
make the same steps, and print the same; and a run whose lines are refused makes the same steps as one whose lines
are kept, up to the point where the first line is to be written. There it fails, and nothing catches the failure.

To say where that point is, `moments` follows an evaluation and notes each line that is about to be written, together
with the state at that moment. `Records` is what the moments tell about the runs: it is shown of actions, of their
sequence, of lists of terms, of loops, and with `step_eq_inOrder` of all terms. It does not matter what comes of the
run, so that it is also said what an endless run prints with the fuel that it has.

## Contents
- `Moment`, `moments` — the lines of an evaluation, and the states in which they are written;
- `IsLine` — what a line can be;
- `Records` — what the moments tell about runs with other sinks;
- `Records.andThen`, `Records.each`, `Records.repeatWhile` — sequences;
- `eval_records` — evaluation.
-/

namespace Abacus

/-- The same state with another sink. -/
def Env.withSink (env : Env) (sink : Sink) : Env := { env with sink }

namespace Env

theorem setScalar_withSink (env : Env) (name : String) (value : Float) (sink : Sink) :
    (env.withSink sink).setScalar name value = (env.setScalar name value).withSink sink := by
  have hrunning : (env.withSink sink).running? = env.running? := rfl
  unfold setScalar
  rw [hrunning]
  cases env.running? <;> rfl

theorem define_withSink (env : Env) (d : Definition) (sink : Sink) :
    (env.withSink sink).define d = (env.define d).withSink sink := by
  have hfunctions : (env.withSink sink).functions = env.functions := rfl
  unfold define
  rw [hfunctions]
  cases env.functions.get? d.name <;> rfl

end Env

namespace Eval

variable {α β ρ : Type}

/-! ## Moments -/

/-- A line that is about to be written, and the state at that moment. -/
structure Moment where
  line : String
  state : Env

/-- The lines, the oldest first. -/
def printed (moments : List Moment) : Array String := (moments.map Moment.line).toArray

/-- The moments behind an action: none unless it gives a value. -/
def behind (x : Eval α) (next : α → Env → List Moment) (env : Env) : List Moment :=
  match x env with
  | some (.ok a, mid) => next a mid
  | _ => []

section Following

variable (eval : Term → Eval Float) (within : Term → Env → List Moment)

/-- The moments of several terms, from left to right. -/
def momentsEach : List Term → Env → List Moment
  | [], _ => []
  | term :: rest, env => within term env ++ behind (eval term) (fun _ => momentsEach rest) env

/-- The moments of a loop of at most `n` rounds. -/
def momentsWhile (condition body : Term) : Nat → Env → List Moment
  | 0, _ => []
  | n + 1, env =>
    within condition env ++ behind (eval condition) (fun value mid =>
      if Number.isTruthy value then
        within body mid ++ behind (eval body) (fun _ => momentsWhile condition body n) mid
      else []) env

/-- The moments of the terms that are evaluated next. -/
def Sequel.moments (sequel : Sequel) (now : Env) : List Moment :=
  match sequel.call with
  | .none => momentsEach eval within sequel.terms now
  | .some (function, bindings) =>
    momentsEach eval within sequel.terms { now.enter function bindings with active := some function }

/-- The moment of a move that prints. -/
def Move.moments (move : Move) (last : Env) : List Moment :=
  match move with
  | print line _ => [⟨line, last⟩]
  | _ => []

/-- The moments of a term that is evaluated part by part. -/
def momentsInOrder (term : Term) (begun : Env) : List Moment :=
  momentsEach eval within (opening begun term) begun ++
    behind (each eval (opening begun term)) (fun values now =>
      (sequel begun now values term).moments eval within now ++
        behind ((sequel begun now values term).run eval) (fun more last =>
          (move begun last values more term).moments last) now) begun

/-- The moments of a term, given those of other terms. -/
def momentsStep (n : Nat) : Term → Env → List Moment
  | .whileLoop condition body, env => momentsWhile eval within condition body n env
  | term, env => momentsInOrder eval within term env

end Following

/-- The moments at which the evaluation of a term writes a line, within the given fuel. -/
def moments : Nat → Term → Env → List Moment
  | 0, _, _ => []
  | n + 1, term, env => momentsStep (eval n) (moments n) n term env

/-! ## Lines -/

/-- What a line can be: a truth value, a number or an array. -/
inductive IsLine : String → Prop where
  | truth (value : Bool) : IsLine (truthText value)
  | number (value : Float) : IsLine (Number.text value)
  | array (elements : Elements) : IsLine elements.text

theorem isLine_valueText (term : Term) (value : Float) : IsLine (valueText term value) := by
  unfold valueText
  split
  · exact .truth _
  · exact .number value

/-- Only a `print` prints, and it prints a line. -/
theorem isLine_of_move {begun last : Env} {values more : List Float} {term : Term} {line : String} {value : Float}
    (h : move begun last values more term = .print line value) : IsLine line := by
  cases term with
  | print inner =>
      rw [move_print] at h
      split at h
      · cases h
        exact .array _
      · cases h
        exact isLine_valueText inner _
  | binary op left right =>
      simp only [move] at h
      generalize operate op _ _ _ _ = result at h
      cases result <;> cases h
  | define name params body => cases h
  | _ =>
      have hplain : (Move.print line value).isPlain = true := by
        rw [← h]
        exact isPlain_move begun last values more rfl
      cases hplain

/-! ## What depends on the sink -/

section WithSink

variable (env : Env) (sink : Sink)

theorem opening_withSink (term : Term) : opening (env.withSink sink) term = opening env term := by
  cases term <;> rfl

theorem sequel_withSink (now : Env) (values : List Float) (term : Term) :
    sequel (env.withSink sink) now values term = sequel env now values term := by
  cases term <;> rfl

theorem sequel_now_withSink (begun : Env) (values : List Float) (term : Term) :
    sequel begun (env.withSink sink) values term = sequel begun env values term := by
  cases term <;> rfl

theorem move_withSink (last : Env) (values more : List Float) (term : Term) :
    move (env.withSink sink) last values more term = move env last values more term := by
  cases term <;> rfl

theorem move_last_withSink (begun : Env) (values more : List Float) (term : Term) :
    move begun (env.withSink sink) values more term = move begun env values more term := by
  cases term <;> rfl

end WithSink

/-! ## What moments tell -/

/-- Does `x`, and goes on with its value; a failure ends both. -/
def andThen (fail : RuntimeError → ρ) (x : Eval α) (next : α → Env → Option (ρ × Env)) (env : Env) :
    Option (ρ × Env) :=
  match x env with
  | none => none
  | some (.ok a, mid) => next a mid
  | some (.error e, mid) => some (fail e, mid)

/-- From the state `env`, with `lines` printed so far, `x` writes at the given moments. It does the same with any
other lines printed so far. When lines are refused it does the same if it writes none, and otherwise fails with the
state of the first moment, back in the scope that it began in. -/
structure Records (fail : RuntimeError → ρ) (x : Env → Option (ρ × Env)) (env : Env) (lines : Array String)
    (moments : List Moment) : Prop where
  sink : env.sink = .accepting lines
  scope : ∀ {r after}, x env = some (r, after) → after.active = env.active
  isLine : ∀ m ∈ moments, IsLine m.line
  state : ∀ {before m rest}, moments = before ++ m :: rest → m.state.sink = .accepting (lines ++ printed before)
  accepted : ∀ others, x (env.withSink (.accepting others)) =
    (x env).map fun y => (y.1, y.2.withSink (.accepting (others ++ printed moments)))
  refused : ∀ reason, x (env.withSink (.refusing reason)) = match moments with
    | [] => (x env).map fun y => (y.1, y.2.withSink (.refusing reason))
    | m :: _ => some (fail (.output reason), { m.state with active := env.active, sink := .refusing reason })

namespace Records

variable {fail : RuntimeError → ρ} {env : Env} {lines : Array String} {ms : List Moment}

/-- Behind a run the lines are those from before and those of its moments. -/
theorem sink_after {x : Env → Option (ρ × Env)} (h : Records fail x env lines ms) {r : ρ} {after : Env}
    (hx : x env = some (r, after)) : after.sink = .accepting (lines ++ printed ms) := by
  have hsame : env.withSink (.accepting lines) = env := by
    rw [← h.sink]
    rfl
  have haccepted := h.accepted lines
  rw [hsame, hx] at haccepted
  exact congrArg (fun y => y.2.sink) (Option.some.inj haccepted)

/-- What counts is what is done from the given state, with any sink. -/
theorem congr {x y : Env → Option (ρ × Env)} (hy : Records fail y env lines ms)
    (hxy : ∀ sink, x (env.withSink sink) = y (env.withSink sink)) : Records fail x env lines ms := by
  have henv : x env = y env := hxy env.sink
  refine ⟨hy.sink, fun h => hy.scope (henv.symm.trans h), hy.isLine, hy.state, fun others => ?_, fun reason => ?_⟩
  · rw [hxy, henv, hy.accepted]
  · rw [hxy, henv, hy.refused]

/-- A change of the state in front that has nothing to do with the sink, nor with the scope. -/
theorem comp {x : Env → Option (ρ × Env)} (change : Env → Env) (h : Records fail x (change env) lines ms)
    (hactive : (change env).active = env.active) (hsame : (change env).sink = env.sink)
    (hchange : ∀ sink, change (env.withSink sink) = (change env).withSink sink) :
    Records fail (fun s => x (change s)) env lines ms where
  sink := by rw [← hsame, h.sink]
  scope hx := by rw [h.scope hx, hactive]
  isLine := h.isLine
  state := h.state
  accepted others := by rw [hchange, h.accepted]
  refused reason := by rw [hchange, h.refused, hactive]

/-! ## Actions -/

/-- An action that does the same with any sink, which it passes on, and that ends in the scope it began in. -/
theorem of_silent {x : Env → Option (ρ × Env)}
    (hscope : ∀ {r after}, x env = some (r, after) → after.active = env.active)
    (hx : ∀ sink, x (env.withSink sink) = (x env).map fun y => (y.1, y.2.withSink sink))
    (hsink : env.sink = .accepting lines) : Records fail x env lines [] where
  sink := hsink
  scope := hscope
  isLine := nofun
  state h := by simp at h
  accepted others := by simp [hx, printed]
  refused reason := hx _

/-- An action that gives its result whatever the state is, and leaves it as it is. -/
theorem of_still {x : Env → Option (ρ × Env)} {r : ρ} (hx : ∀ s, x s = some (r, s))
    (hsink : env.sink = .accepting lines) : Records fail x env lines [] := by
  refine of_silent (fun h => ?_) (fun sink => by simp [hx]) hsink
  rw [hx] at h
  cases h
  rfl

theorem of_outOfFuel {x : Env → Option (ρ × Env)} (hx : ∀ s, x s = none)
    (hsink : env.sink = .accepting lines) : Records fail x env lines [] := by
  refine of_silent (fun h => ?_) (fun sink => by simp [hx]) hsink
  rw [hx] at h
  cases h

/-- A change of the state that has nothing to do with the sink, nor with the scope. -/
theorem of_update {change : Env → Env} (hactive : (change env).active = env.active)
    (hchange : ∀ sink, change (env.withSink sink) = (change env).withSink sink)
    (hsink : env.sink = .accepting lines) : Records Except.error (update change) env lines [] := by
  refine of_silent (fun h => ?_) (fun sink => by simp [update, hchange]) hsink
  cases h
  exact hactive

theorem of_write {line : String} (hline : IsLine line) (hsink : env.sink = .accepting lines) :
    Records Except.error (write line) env lines [⟨line, env⟩] where
  sink := hsink
  scope h := by
    simp only [write, hsink, Sink.write, Option.some.injEq, Prod.mk.injEq] at h
    rw [← h.2]
  isLine m hm := by
    rw [List.mem_singleton.mp hm]
    exact hline
  state {before m rest} h := by
    cases before with
    | nil =>
        cases h
        simpa [printed] using hsink
    | cons first before => simp at h
  accepted others := by simp [write, hsink, Sink.write, printed, Env.withSink]
  refused reason := by simp [write, Sink.write, Env.withSink]

/-! ## Sequences -/

theorem printed_append (ms ns : List Moment) : printed (ms ++ ns) = printed ms ++ printed ns := by
  simp [printed]

/-- Moments behind others see the lines of the others as well. -/
theorem state_append {ns : List Moment}
    (hms : ∀ {before m rest}, ms = before ++ m :: rest → m.state.sink = .accepting (lines ++ printed before))
    (hns : ∀ {before m rest}, ns = before ++ m :: rest →
      m.state.sink = .accepting (lines ++ printed ms ++ printed before))
    {before rest : List Moment} {m : Moment} (h : ms ++ ns = before ++ m :: rest) :
    m.state.sink = .accepting (lines ++ printed before) := by
  rcases List.append_eq_append_iff.mp h with ⟨front, rfl, hns'⟩ | ⟨front, hms', hrest⟩
  · rw [hns hns', printed_append, Array.append_assoc]
  · cases front with
    | nil =>
        have hfirst : ns = [] ++ m :: rest := hrest.symm
        rw [hns hfirst, hms', List.append_nil]
        simp [printed]
    | cons first front =>
        cases hrest
        exact hms hms'

/-- A run that gives no value is the whole sequence. -/
theorem andThen_stopped {x : Eval α} {next : α → Env → Option (ρ × Env)}
    (hx : Records Except.error x env lines ms) (hstop : ∀ a mid, x env ≠ some (.ok a, mid)) :
    Records fail (Eval.andThen fail x next) env lines ms := by
  have hsame {s : Env} {sink : Sink} (hs : x s = (x env).map fun y => (y.1, y.2.withSink sink)) :
      Eval.andThen fail x next s = (Eval.andThen fail x next env).map fun y => (y.1, y.2.withSink sink) := by
    unfold Eval.andThen
    rw [hs]
    rcases hend : x env with _ | ⟨_ | a, mid⟩
    · rfl
    · rfl
    · exact absurd hend (hstop a mid)
  refine ⟨hx.sink, fun {r after} h => ?_, hx.isLine, hx.state, fun others => hsame (hx.accepted others),
    fun reason => ?_⟩
  · unfold Eval.andThen at h
    rcases hend : x env with _ | ⟨_ | a, mid⟩
    · rw [hend] at h
      cases h
    · rw [hend] at h
      cases h
      exact hx.scope hend
    · exact absurd hend (hstop a mid)
  · have hrefused := hx.refused reason
    cases ms with
    | nil => exact hsame hrefused
    | cons m rest => rw [Eval.andThen, hrefused]

/-- **A sequence writes what its parts write**: first what `x` writes, and behind it what follows. -/
theorem andThen {x : Eval α} {next : α → Env → Option (ρ × Env)} {within : α → Env → List Moment}
    (hx : Records Except.error x env lines ms)
    (hnext : ∀ {a mid}, x env = some (.ok a, mid) →
      Records fail (next a) mid (lines ++ printed ms) (within a mid)) :
    Records fail (Eval.andThen fail x next) env lines (ms ++ behind x within env) := by
  rcases hend : x env with _ | ⟨_ | a, mid⟩
  · rw [behind, hend, List.append_nil]
    exact hx.andThen_stopped (by simp [hend])
  · rw [behind, hend, List.append_nil]
    exact hx.andThen_stopped (by simp [hend])
  · have hmid := hnext hend
    rw [behind, hend]
    refine ⟨hx.sink, fun {r after} h => ?_, fun m hm => ?_, state_append hx.state hmid.state, fun others => ?_,
      fun reason => ?_⟩
    · rw [Eval.andThen, hend] at h
      rw [hmid.scope h, hx.scope hend]
    · rcases List.mem_append.mp hm with hm | hm
      · exact hx.isLine m hm
      · exact hmid.isLine m hm
    · rw [Eval.andThen, Eval.andThen, hx.accepted, hend, printed_append, ← Array.append_assoc]
      exact hmid.accepted (others ++ printed ms)
    · rw [Eval.andThen, Eval.andThen, hx.refused, hend]
      cases ms with
      | cons m rest => rfl
      | nil =>
          -- Nothing was written so far, so that the first moment is one of those that follow.
          refine (hmid.refused reason).trans ?_
          rw [hx.scope hend]
          rfl

theorem bind {x : Eval α} {f : α → Eval β} {within : α → Env → List Moment}
    (hx : Records Except.error x env lines ms)
    (hf : ∀ {a mid}, x env = some (.ok a, mid) →
      Records Except.error (f a) mid (lines ++ printed ms) (within a mid)) :
    Records Except.error (x >>= f) env lines (ms ++ behind x within env) :=
  hx.andThen hf

/-- A value that is made of the value of `x`. -/
theorem bind_pure {x : Eval α} {f : α → β} (hx : Records Except.error x env lines ms) :
    Records Except.error (x >>= fun a => pure (f a)) env lines ms := by
  have hbind := hx.bind fun {a mid} h =>
    of_still (fun s => show (pure (f a) : Eval β) s = _ from rfl) (hx.sink_after h)
  have hbehind : behind x (fun _ _ => []) env = [] := by
    unfold behind
    split <;> rfl
  rwa [hbehind, List.append_nil] at hbind

/-- What is done may depend on the state, as long as it does not depend on the sink. -/
theorem look {f : Env → Eval α} (hf : Records Except.error (f env) env lines ms)
    (hsink : ∀ sink, f (env.withSink sink) = f env) : Records Except.error (Eval.env >>= f) env lines ms := by
  refine hf.congr fun sink => ?_
  rw [env_bind, hsink]

/-- A call writes what its body writes, and the scope of the caller returns. -/
theorem inCall {function : String} {body : Eval α}
    (h : Records Except.error body { env with active := some function } lines ms) :
    Records Except.error (inCall function body) env lines ms where
  sink := h.sink
  scope {r after} hend := by
    unfold Eval.inCall at hend
    split at hend
    · cases hend
    · cases hend
      rfl
  isLine := h.isLine
  state := h.state
  accepted others := by
    have haccepted := h.accepted others
    unfold Eval.inCall
    rw [show { env.withSink (.accepting others) with active := some function } =
      Env.withSink { env with active := some function } (.accepting others) from rfl, haccepted]
    cases body { env with active := some function } <;> rfl
  refused reason := by
    have hrefused := h.refused reason
    unfold Eval.inCall
    rw [show { env.withSink (.refusing reason) with active := some function } =
      Env.withSink { env with active := some function } (.refusing reason) from rfl, hrefused]
    cases ms with
    | nil => cases body { env with active := some function } <;> rfl
    | cons m rest => rfl

/-! ## Moves -/

theorem move_run (move : Move) (hline : ∀ line value, move = .print line value → IsLine line)
    (hsink : env.sink = .accepting lines) : Records Except.error move.run env lines (move.moments env) := by
  cases move with
  | give value => exact of_still (fun _ => rfl) hsink
  | fail error => exact of_still (fun _ => rfl) hsink
  | setScalar name value =>
      exact (of_update (Env.Keeps.setScalar name value).active (Env.setScalar_withSink env name value) hsink).bind_pure
  | bindArray name elements value => exact (of_update rfl (fun _ => rfl) hsink).bind_pure
  | define d => exact (of_update (Env.Keeps.define d).active (Env.define_withSink env d) hsink).bind_pure
  | print line value => exact (of_write (hline line value rfl) hsink).bind_pure

/-! ## Several terms -/

section Terms

variable {ev : Term → Eval Float} {within : Term → Env → List Moment}
  (hev : ∀ term {env lines}, env.sink = .accepting lines →
    Records Except.error (ev term) env lines (within term env))

include hev

theorem each (terms : List Term) (hsink : env.sink = .accepting lines) :
    Records Except.error (each ev terms) env lines (momentsEach ev within terms env) := by
  induction terms generalizing env lines with
  | nil => exact of_still (fun _ => rfl) hsink
  | cons term rest ih =>
      have hterm := hev term hsink
      exact hterm.bind fun h => (ih (hterm.sink_after h)).bind_pure

/-- One round after the other. -/
theorem repeatWhile (condition body : Term) (n : Nat) (last : Float) (hsink : env.sink = .accepting lines) :
    Records Except.error (repeatWhile (ev condition) (ev body) n last) env lines
      (momentsWhile ev within condition body n env) := by
  induction n generalizing env lines last with
  | zero => exact of_outOfFuel (fun _ => rfl) hsink
  | succ n ih =>
      have hcondition := hev condition hsink
      refine hcondition.bind fun {value mid} h => ?_
      have hmid := hcondition.sink_after h
      by_cases hvalue : Number.isTruthy value = true
      · rw [if_pos hvalue, if_pos hvalue]
        have hbody := hev body hmid
        exact hbody.bind fun h => ih _ (hbody.sink_after h)
      · rw [if_neg hvalue, if_neg hvalue]
        exact of_still (fun _ => rfl) hmid

theorem sequel_run (sequel : Sequel) (hsink : env.sink = .accepting lines) :
    Records Except.error (sequel.run ev) env lines (sequel.moments ev within env) := by
  obtain ⟨terms, _ | ⟨function, bindings⟩⟩ := sequel
  · exact each hev terms hsink
  · have henter : Records Except.error (update (·.enter function bindings)) env lines [] :=
      of_update rfl (fun _ => rfl) hsink
    have hcall {a : Unit} {mid : Env} (h : update (·.enter function bindings) env = some (.ok a, mid)) :
        Records Except.error (Eval.inCall function (Eval.each ev terms)) mid (lines ++ printed [])
          (momentsEach ev within terms { mid with active := some function }) := by
      have hmid : mid.sink = .accepting (lines ++ printed []) := henter.sink_after h
      exact inCall (each hev terms hmid)
    exact henter.bind hcall

theorem inOrder (term : Term) (hsink : env.sink = .accepting lines) :
    Records Except.error (inOrder ev term) env lines (momentsInOrder ev within term env) := by
  refine look ?_ (fun sink => by simp only [opening_withSink, sequel_withSink, move_withSink])
  have hopening := each hev (opening env term) hsink
  refine hopening.bind fun {values now} h => look ?_ (fun sink => by simp only [sequel_now_withSink])
  have hsequel := sequel_run hev (sequel env now values term) (hopening.sink_after h)
  refine hsequel.bind fun {more last} h => look ?_ (fun sink => by simp only [move_last_withSink])
  exact move_run _ (fun line value => isLine_of_move) (hsequel.sink_after h)

end Terms

end Records

/-- **What an evaluation writes**, within any fuel. -/
theorem eval_records (fuel : Nat) (term : Term) {env : Env} {lines : Array String}
    (hsink : env.sink = .accepting lines) :
    Records Except.error (eval fuel term) env lines (moments fuel term env) := by
  induction fuel generalizing term env lines with
  | zero => exact Records.of_outOfFuel (fun _ => rfl) hsink
  | succ n ih =>
      rcases loop_or_inOrder term with ⟨condition, body, rfl⟩ | ⟨hterm, hstep⟩
      · exact Records.repeatWhile ih condition body n 0 hsink
      · have hmoments : moments (n + 1) term env = momentsInOrder (eval n) (moments n) term env := by
          show momentsStep (eval n) (moments n) n term env = _
          unfold momentsStep
          split
          · exact absurd rfl (hterm _ _)
          · rfl
        rw [hstep, hmoments]
        exact Records.inOrder ih term hsink

end Eval
end Abacus
