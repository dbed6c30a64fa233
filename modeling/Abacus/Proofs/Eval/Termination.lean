import Mathlib.Order.WellFounded
import Abacus.Proofs.Eval.Functions
import Abacus.Proofs.Eval.Moves

/-!
# `Eval.Termination` — without loops and recursion every evaluation ends

A call goes on with a body that is kept in the table of functions, so evaluation does not follow the structure of a
term. Still it ends if no loop is met and if calls only lead downwards, in some ranking of the functions: a body can
only call functions of lower rank, and everything else that is evaluated stands inside the term at hand. That depends
on the table: a function must not get another body on the way, and no function may be added. Evaluating a definition
does neither if its function is registered (`Eval.Functions`).

`Ends` says that an action ends if it has enough fuel, with the definitions it began with. It is shown of actions, of
their sequence, and with `step_eq_inOrder` of all terms, by induction on the rank and on the size of a term.

## Contents
- `Term.LoopFree`, `Env.Ranked` — what is asked of a term, and of the registered functions;
- `Env.SameDefinitions` — what evaluation leaves as it is;
- `Settles`, `Ends` — actions that end with enough fuel;
- `Ends.bind`, `Ends.each`, `Ends.inOrder` — sequences;
- `ends_of_calls` — a term ends if the bodies that it calls do;
- `evaluation_ends` — every term ends.
-/

namespace Abacus

/-- No loop is evaluated with the term itself. -/
def Term.LoopFree (term : Term) : Prop := ∀ condition body, ¬Term.Exposed (.whileLoop condition body) term

/-- No body of a registered function has a loop, and it only calls registered functions of a lower rank. -/
structure Env.Ranked {ι : Type*} [LT ι] (rank : String → ι) (env : Env) : Prop where
  loopFree : ∀ name frame, env.functions.get? name = some frame → frame.definition.body.LoopFree
  descends : ∀ name frame, env.functions.get? name = some frame → ∀ callee args,
    Term.Exposed (.call callee args) frame.definition.body → env.functions.contains callee = true →
      rank callee < rank name

/-! ## Definitions -/

/-- The same functions are registered, with the same definitions. -/
def Env.SameDefinitions (base env : Env) : Prop := ∀ name, env.definition? name = base.definition? name

namespace Env.SameDefinitions

variable {base env after : Env}

theorem of_sameFunctions (h : base.SameDefinitions env) (h' : env.SameFunctions after) :
    base.SameDefinitions after :=
  fun name => (h'.definition?_eq name).trans (h name)

theorem registered (h : base.SameDefinitions env) (name : String) :
    env.functions.contains name = base.functions.contains name := by
  rw [← isSome_definition?, ← isSome_definition?, h]

end Env.SameDefinitions

namespace Eval

variable {α β : Type}

/-! ## Enough fuel -/

/-- With enough fuel, `x` leads from `env` to `y`. -/
def Settles (x : Nat → Eval α) (env : Env) (y : Except RuntimeError α × Env) : Prop :=
  ∃ enough, ∀ n, enough ≤ n → x n env = some y

/-- With enough fuel `x` ends, and leaves the definitions as they are in `base`. -/
def Ends (base : Env) (x : Nat → Eval α) (env : Env) : Prop :=
  ∃ r after, Settles x env (r, after) ∧ base.SameDefinitions after

namespace Ends

variable {base env : Env}

/-- What needs no fuel ends. -/
theorem of_eq {x : Nat → Eval α} {r : Except RuntimeError α} {after : Env} (h : ∀ n, x n env = some (r, after))
    (hsame : base.SameDefinitions after) : Ends base x env :=
  ⟨r, after, ⟨0, fun n _ => h n⟩, hsame⟩

/-- **A sequence ends if its parts do.** The second part may need more fuel than the first. -/
theorem bind {x : Nat → Eval α} {f : Nat → α → Eval β} (hx : Ends base x env)
    (hf : ∀ a mid, base.SameDefinitions mid → Ends base (fun n => f n a) mid) :
    Ends base (fun n => x n >>= f n) env := by
  obtain ⟨e | a, mid, ⟨N, hN⟩, hmid⟩ := hx
  · refine ⟨.error e, mid, ⟨N, fun n hn => ?_⟩, hmid⟩
    show (x n >>= f n) env = _
    rw [bind_apply, hN n hn]
  · obtain ⟨r, after, ⟨M, hM⟩, hafter⟩ := hf a mid hmid
    refine ⟨r, after, ⟨max N M, fun n hn => ?_⟩, hafter⟩
    have hN' : N ≤ n := Nat.le_trans (Nat.le_max_left N M) hn
    have hM' : M ≤ n := Nat.le_trans (Nat.le_max_right N M) hn
    show (x n >>= f n) env = _
    rw [bind_apply, hN n hN']
    exact hM n hM'

theorem look {f : Nat → Env → Eval α} (h : Ends base (fun n => f n env) env) :
    Ends base (fun n => Eval.env >>= f n) env := by
  obtain ⟨r, after, ⟨N, hN⟩, hsame⟩ := h
  exact ⟨r, after, ⟨N, fun n hn => hN n hn⟩, hsame⟩

theorem inCall {x : Nat → Eval α} {function : String}
    (h : Ends base x { env with active := some function }) :
    Ends base (fun n => inCall function (x n)) env := by
  obtain ⟨r, after, ⟨N, hN⟩, hsame⟩ := h
  refine ⟨r, { after with active := env.active }, ⟨N, fun n hn => ?_⟩, hsame⟩
  show Eval.inCall function (x n) env = _
  rw [Eval.inCall, hN n hn]

/-- Every move ends. One that defines a function needs it to be registered. -/
theorem move (move : Move) (hsame : base.SameDefinitions env)
    (hdefine : ∀ d, move = .define d → env.functions.contains d.name = true) :
    Ends base (fun _ => move.run) env := by
  cases move with
  | give value => exact of_eq (fun _ => rfl) hsame
  | fail error => exact of_eq (fun _ => rfl) hsame
  | setScalar name value => exact of_eq (fun _ => rfl) (hsame.of_sameFunctions (.setScalar name value))
  | bindArray name elements value => exact of_eq (fun _ => rfl) hsame
  | define d => exact of_eq (fun _ => rfl) (hsame.of_sameFunctions (.define (hdefine d rfl)))
  | print line value =>
      have hwrite : Ends base (fun _ => write line) env := by
        cases hsink : env.sink.write line with
        | ok sink =>
            have hrun : write line env = some (.ok (), { env with sink }) := by rw [write, hsink]
            exact of_eq (fun _ => hrun) hsame
        | error reason =>
            have hrun : write line env = some (.error (.output reason), env) := by rw [write, hsink]
            exact of_eq (fun _ => hrun) hsame
      exact hwrite.bind fun _ mid hmid => of_eq (fun _ => rfl) hmid

end Ends

/-! ## Terms -/

/-- The term ends, from every state with the definitions of `base`. -/
def EndsIn (base : Env) (term : Term) : Prop :=
  ∀ env, base.SameDefinitions env → Ends base (fun n => eval n term) env

namespace Ends

variable {base env : Env}

theorem each {terms : List Term} (hterms : ∀ t ∈ terms, EndsIn base t) (hsame : base.SameDefinitions env) :
    Ends base (fun n => each (eval n) terms) env := by
  induction terms generalizing env with
  | nil => exact of_eq (fun _ => rfl) hsame
  | cons term rest ih =>
      obtain ⟨hterm, hrest⟩ := List.forall_mem_cons.mp hterms
      refine (hterm env hsame).bind fun value mid hmid => ?_
      exact (ih hrest hmid).bind fun values last hlast => of_eq (fun _ => rfl) hlast

theorem sequel_run {sequel : Sequel} (hterms : ∀ t ∈ sequel.terms, EndsIn base t)
    (hsame : base.SameDefinitions env) : Ends base (fun n => sequel.run (eval n)) env := by
  obtain ⟨terms, _ | ⟨function, bindings⟩⟩ := sequel
  · exact each hterms hsame
  · have henter : Ends base (fun _ => update (·.enter function bindings)) env :=
      of_eq (fun _ => rfl) (hsame.of_sameFunctions (.enter function bindings))
    exact henter.bind fun _ mid hmid => inCall (each hterms hmid)

/-- A term ends if those that are evaluated with it do. -/
theorem inOrder {term : Term} (hopening : ∀ begun, ∀ t ∈ opening begun term, EndsIn base t)
    (hsequel : ∀ begun now values, base.SameDefinitions begun →
      ∀ t ∈ (sequel begun now values term).terms, EndsIn base t)
    (hdefine : ∀ d, term.Defines d → base.functions.contains d.name = true) (hsame : base.SameDefinitions env) :
    Ends base (fun n => inOrder (eval n) term) env := by
  refine look ((each (hopening env) hsame).bind fun values now hnow => look ?_)
  refine (sequel_run (hsequel env now values hsame) hnow).bind fun more last hlast => look ?_
  refine move _ hlast fun d hd => ?_
  rw [hlast.registered]
  apply hdefine
  rw [eq_define_of_move env last values more hd]
  exact .refl

end Ends

/-- **A term ends if the bodies that it calls do.** -/
theorem ends_of_calls {base : Env} {term : Term} (hloop : term.LoopFree)
    (hdefine : ∀ d, term.Defines d → base.functions.contains d.name = true)
    (hcalls : ∀ name args, Term.Exposed (.call name args) term →
      ∀ d, base.definition? name = some d → EndsIn base d.body) :
    EndsIn base term := by
  -- What is evaluated with a term is smaller, unless it is the body of a call.
  induction hsize : sizeOf term using Nat.strongRecOn generalizing term with
  | ind size ih =>
      have hinside : ∀ t, (∃ part ∈ term.exposedParts, Term.Exposed t part) → EndsIn base t := by
        rintro t ⟨part, hpart, ht⟩
        have hin : Term.Exposed t term := .part hpart ht
        have hlt : sizeOf t < size := by
          have hle := ht.sizeOf_le
          have := Term.sizeOf_lt_of_mem_parts (Term.mem_parts_of_exposed hpart)
          omega
        refine ih _ hlt ?_ ?_ ?_ rfl
        · exact fun condition body h => hloop condition body (h.trans hin)
        · exact fun d hd => hdefine d (Term.Within.trans hd hin.within)
        · exact fun name args h => hcalls name args (h.trans hin)
      intro env hsame
      have horder : Ends base (fun n => inOrder (eval n) term) env := by
        refine .inOrder (fun begun t ht => hinside t (exposed_of_opening ht)) ?_ hdefine hsame
        intro begun now values hbegun t ht
        rcases sequel_cases begun now values term with
          ⟨terms, hsequel, hparts⟩ | ⟨name, args, frame, rfl, hget, hsequel⟩
        · rw [hsequel] at ht
          exact hinside t ⟨t, hparts t ht, .refl⟩
        · rw [hsequel] at ht
          rw [List.mem_singleton.mp ht]
          refine hcalls name args .refl frame.definition ?_
          rw [← hbegun, Env.definition?_eq_some]
          exact ⟨frame, hget, rfl⟩
      rcases loop_or_inOrder term with ⟨condition, body, rfl⟩ | ⟨-, hstep⟩
      · exact absurd .refl (hloop condition body)
      · obtain ⟨r, after, ⟨N, hN⟩, hafter⟩ := horder
        refine ⟨r, after, ⟨N + 1, fun n hn => ?_⟩, hafter⟩
        obtain ⟨m, rfl⟩ : ∃ m, n = m + 1 := ⟨n - 1, by omega⟩
        show eval (m + 1) term env = _
        rw [hstep]
        exact hN m (by omega)

/-- The bodies of ranked functions end, from the lowest rank upwards. -/
theorem bodies_end {ι : Type*} [LT ι] [WellFoundedLT ι] {rank : String → ι} {base : Env} (hranked : base.Ranked rank)
    (hclosed : base.Closed) (name : String) (d : Definition) (hd : base.definition? name = some d) :
    EndsIn base d.body := by
  induction hrank : rank name using WellFoundedLT.induction generalizing name d with
  | ind _ ih =>
      obtain ⟨frame, hget, rfl⟩ := Env.definition?_eq_some.mp hd
      refine ends_of_calls (hranked.loopFree name frame hget) (hclosed name frame hget) ?_
      intro callee args hin d' hd'
      have hregistered : base.functions.contains callee = true := by
        rw [← Env.isSome_definition?, hd']
        rfl
      have hlt := hranked.descends name frame hget callee args hin hregistered
      rw [hrank] at hlt
      exact ih _ hlt callee d' hd' rfl

/-- **Without loops and recursion every evaluation ends**, with a value or a failure. -/
theorem evaluation_ends {ι : Type*} [LT ι] [WellFoundedLT ι] {rank : String → ι} {env : Env} {term : Term}
    (hloop : term.LoopFree) (hdefine : ∀ d, term.Defines d → env.functions.contains d.name = true)
    (hclosed : env.Closed) (hranked : env.Ranked rank) :
    ∃ fuel r after, eval fuel term env = some (r, after) := by
  have hterm : EndsIn env term :=
    ends_of_calls hloop hdefine fun name _ _ d hd => bodies_end hranked hclosed name d hd
  obtain ⟨r, after, ⟨N, hN⟩, -⟩ := hterm env fun _ => rfl
  exact ⟨N, r, after, hN N (Nat.le_refl N)⟩

/-- Calling `f`, which calls `g`, ends. The body of `g` defines `f` once more, with an endless loop: that loop is
outside of what is evaluated, and `f` keeps the body that it was registered with. -/
theorem evaluation_ends_two_functions :
    let endless : Term := .whileLoop (.boolean true) (.boolean true)
    let g : Definition := ⟨"g", [], .define "f" [] endless⟩
    let f : Definition := ⟨"f", [], .call "g" []⟩
    let env := (Env.empty.register g).register f
    let rank (name : String) : Nat := if name = "f" then 1 else 0
    env.Closed ∧ env.Ranked rank ∧ ∃ fuel r after, eval fuel (.call "f" []) env = some (r, after) := by
  intro endless g f env rank
  have hget : ∀ name frame, env.functions.get? name = some frame →
      name = "f" ∧ frame.definition = f ∨ name = "g" ∧ frame.definition = g := by
    intro name frame hget
    have htable : env.functions.get? name = if name = "f" then some ⟨f, ∅, false⟩ else
        if name = "g" then some ⟨g, ∅, false⟩ else none := by
      simp only [env, Env.register, Table.get?_insert]
      rfl
    rw [htable] at hget
    split at hget
    · next hname =>
      cases hget
      exact .inl ⟨hname, rfl⟩
    · split at hget
      · next hname =>
        cases hget
        exact .inr ⟨hname, rfl⟩
      · cases hget
  -- Nothing stands inside either body, as far as it is evaluated.
  have hcall {t : Term} {name : String} (h : Term.Exposed t (.call name [])) : t = .call name [] := by
    cases h with
    | refl => rfl
    | part hpart _ => cases hpart
  have hbody {t : Term} (h : Term.Exposed t g.body) : t = g.body := by
    cases h with
    | refl => rfl
    | part hpart _ => cases hpart
  have hclosed : env.Closed := by
    intro name frame hframe d hd
    rcases hget name frame hframe with ⟨-, hdef⟩ | ⟨-, hdef⟩
    · rw [hdef] at hd
      exact absurd (Term.mem_definitions_iff.mpr hd) List.not_mem_nil
    · rw [hdef] at hd
      have hmem : d ∈ [(⟨"f", [], endless⟩ : Definition)] := Term.mem_definitions_iff.mpr hd
      rw [List.mem_singleton.mp hmem]
      rfl
  have hranked : env.Ranked rank := by
    constructor
    · intro name frame hframe condition body h
      rcases hget name frame hframe with ⟨-, hdef⟩ | ⟨-, hdef⟩
      · rw [hdef] at h
        cases hcall h
      · rw [hdef] at h
        cases hbody h
    · intro name frame hframe callee args h _
      rcases hget name frame hframe with ⟨rfl, hdef⟩ | ⟨rfl, hdef⟩
      · rw [hdef] at h
        cases hcall h
        decide
      · rw [hdef] at h
        cases hbody h
  refine ⟨hclosed, hranked, evaluation_ends ?_ ?_ hclosed hranked⟩
  · intro condition body h
    cases hcall h
  · intro d hd
    exact absurd (Term.mem_definitions_iff.mpr hd) List.not_mem_nil

end Eval
end Abacus
