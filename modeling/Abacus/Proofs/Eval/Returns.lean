import Abacus.Proofs.Eval.Bodies
import Abacus.Proofs.Eval.Functions
import Abacus.Proofs.Grammar.ProgramReading

/-!
# `Eval.Returns` — `return` changes nothing

A `return` gives its value but leaves neither its block nor the call, so it might as well not be written. `Term.erase`
takes it away everywhere, in the bodies of functions as well, and the last theorem says that the program does the same
without it.

The two programs do not make the same steps, and their functions differ in their bodies, so this is a simulation
(`uptoBodies`), once in each direction. A `return` takes one step more, so the direction back to the program with
`return` needs up to twice the fuel.

Erasing must not change what the evaluator makes of the **shape** of a term: whether an operand is written as a
truth value, or an argument as a name. It looks at expressions only, and in a program that was read no `return`
stands inside an expression (`WellSorted`).

## Contents
- `Term.WellSorted` — expressions where expressions belong, and `Statement.wellSorted`;
- `Term.erase`, `Mirrors` — terms without `return`, and how they compare level by level;
- `mirrors_simulates` — one round of both evaluations;
- `eval_simulates_erased`, `erased_simulates_eval` — both directions.
-/

namespace Abacus

/-! ## Expressions where expressions belong -/

namespace Term

/-- The terms right inside a term where an expression belongs. The others are statements. -/
def operands : Term → List Term
  | assign _ value => [value]
  | binary _ left right => [left, right]
  | ifElse condition _ _ => [condition]
  | whileLoop condition _ => [condition]
  | print value => [value]
  | giveBack value => value.toList
  | call _ args => args
  | array elements => elements
  | lookup _ index => [index]
  | store _ index value => [index, value]
  | _ => []

/-- Where an expression belongs there is one, at any depth. -/
def WellSorted (n : Term) : Prop := ∀ t, Within t n → ∀ p ∈ t.operands, p.IsExpression

theorem mem_parts_of_operands {p n : Term} (h : p ∈ n.operands) : p ∈ n.parts := by
  cases n with
  | ifElse condition body otherwise => exact List.mem_cons.mpr (.inl (List.mem_singleton.mp h))
  | whileLoop condition body => exact List.mem_cons.mpr (.inl (List.mem_singleton.mp h))
  | block | braced | elseClause | define => cases h
  | _ => exact h

theorem WellSorted.part {p n : Term} (h : n.WellSorted) (hp : p ∈ n.parts) : p.WellSorted :=
  fun t ht => h t (.part hp ht)

theorem WellSorted.operand {p n : Term} (h : n.WellSorted) (hp : p ∈ n.operands) : p.IsExpression :=
  h n .refl p hp

/-- What is asked of a term is asked of its operands, and of its parts again. -/
theorem wellSorted_iff {n : Term} :
    n.WellSorted ↔ (∀ p ∈ n.operands, p.IsExpression) ∧ ∀ p ∈ n.parts, p.WellSorted :=
  forall_within_iff

/-- Inside an expression there are only expressions. -/
theorem IsExpression.wellSorted {n : Term} (h : n.IsExpression) : n.WellSorted := by
  intro t ht p hp s hs
  have hpart : Within p t := .part (mem_parts_of_operands hp) .refl
  exact h s (hs.trans (hpart.trans ht))

/-- What an expression evaluates within itself are expressions. -/
theorem IsExpression.exposed {t n : Term} (h : n.IsExpression) (ht : Exposed t n) : t.IsExpression := by
  induction ht with
  | refl => exact h
  | part hp _ ih => exact ih (h.part (mem_parts_of_exposed hp))

/-- What is put together like an expression, from expressions, is one. -/
theorem WellSorted.isExpression {n : Term} (h : n.WellSorted) (hhead : n.hasExpressionHead = true) :
    n.IsExpression := by
  refine isExpression_iff.mpr ⟨hhead, fun p hp => h.operand ?_⟩
  cases n with
  | number | boolean | var => cases hp
  | assign | binary | call | array | lookup | store => exact hp
  | _ => cases hhead

end Term

namespace Grammar

open Term (wellSorted_iff)

mutual

/-- **A statement that was read has expressions where they belong.** -/
theorem Statement.wellSorted {known ts n known' defs rest} :
    Statement known ts n known' defs rest → n.WellSorted
  | .ended h _ => h.isExpression.wellSorted
  | .bare h _ _ => h.isExpression.wellSorted
  | .branch _ hc h _ => by
      refine wellSorted_iff.mpr ⟨by simpa [Term.operands] using hc.isExpression, ?_⟩
      simpa [Term.parts] using ⟨hc.isExpression.wellSorted, h.wellSorted⟩
  | .branches _ hc h _ h' => by
      refine wellSorted_iff.mpr ⟨by simpa [Term.operands] using hc.isExpression, ?_⟩
      simpa [Term.parts] using ⟨hc.isExpression.wellSorted, h.wellSorted, h'.wellSorted⟩
  | .loop _ hc h => by
      refine wellSorted_iff.mpr ⟨by simpa [Term.operands] using hc.isExpression, ?_⟩
      simpa [Term.parts] using ⟨hc.isExpression.wellSorted, h.wellSorted⟩
  | .print _ h _ => by
      refine wellSorted_iff.mpr ⟨by simpa [Term.operands] using h.isExpression, ?_⟩
      simpa [Term.parts] using h.isExpression.wellSorted
  | .define _ _ _ _ h =>
      wellSorted_iff.mpr ⟨by simp [Term.operands], by simpa [Term.parts] using h.wellSorted⟩
  | .giveBack _ _ => wellSorted_iff.mpr ⟨by simp [Term.operands], by simp [Term.parts]⟩
  | .giveBackValue _ h _ => by
      refine wellSorted_iff.mpr ⟨by simpa [Term.operands] using h.isExpression, ?_⟩
      simpa [Term.parts] using h.isExpression.wellSorted

theorem ElseClause.wellSorted {known ts n known' defs rest} :
    ElseClause known ts n known' defs rest → n.WellSorted
  | .nested _ h => wellSorted_iff.mpr ⟨by simp [Term.operands], by simpa [Term.parts] using h.wellSorted⟩
  | .block h => wellSorted_iff.mpr ⟨by simp [Term.operands], by simpa [Term.parts] using h.wellSorted⟩

theorem Block.wellSorted {known ts n known' defs rest} : Block known ts n known' defs rest → n.WellSorted
  | .braces _ h => by
      have hblock : (Term.block _).WellSorted := wellSorted_iff.mpr ⟨by simp [Term.operands], h.wellSorted⟩
      exact wellSorted_iff.mpr ⟨by simp [Term.operands], by simpa [Term.parts] using hblock⟩

/-- The parser puts expressions where they belong, by induction on what is read. -/
theorem Statements.wellSorted {known ts ns known' defs rest} :
    Statements known ts ns known' defs rest → ∀ n ∈ ns, n.WellSorted
  | .last h _ => by simpa using h.wellSorted
  | .cons h h' => by simpa using ⟨h.wellSorted, h'.wellSorted⟩

end

end Grammar

/-! ## Without `return` -/

namespace Term

mutual

/-- The term without `return`: its value stands in its place, and `0` if it has none. -/
def erase : Term → Term
  | number value => number value
  | boolean value => boolean value
  | var name => var name
  | assign name value => assign name value.erase
  | binary op left right => binary op left.erase right.erase
  | block statements => block (eraseEach statements)
  | braced body => braced body.erase
  | ifElse condition body otherwise => ifElse condition.erase body.erase (erase? otherwise)
  | elseClause nested inside => elseClause (erase? nested) (erase? inside)
  | whileLoop condition body => whileLoop condition.erase body.erase
  | print value => print value.erase
  | define name params body => define name params body.erase
  | giveBack none => number 0
  | giveBack (some value) => value.erase
  | call name args => call name (eraseEach args)
  | array elements => array (eraseEach elements)
  | lookup name index => lookup name index.erase
  | store name index value => store name index.erase value.erase

/-- Several terms without `return`. -/
def eraseEach : List Term → List Term
  | [] => []
  | term :: rest => term.erase :: eraseEach rest

/-- A term that may be missing, without `return`. -/
def erase? : Option Term → Option Term
  | none => none
  | some term => some term.erase

end

/-- Erasing goes through the terms of a list one by one. -/
@[simp] theorem eraseEach_eq (ns : List Term) : eraseEach ns = ns.map erase := by
  induction ns with
  | nil => rfl
  | cons n ns ih => rw [eraseEach, ih, List.map_cons]

@[simp] theorem erase?_eq (n : Option Term) : erase? n = n.map erase := by
  cases n <;> rfl

/-- There is no `return` in an expression. -/
theorem IsExpression.erase_eq {n : Term} (h : n.IsExpression) : n.erase = n := by
  induction n using induction_parts with
  | h n ih =>
      have hparts : ∀ p ∈ n.parts, p.erase = p := fun p hp => ih p hp (h.part hp)
      cases n with
      | number | boolean | var => rfl
      | assign | binary | lookup | store => simp_all [erase, parts]
      | call name ns | array ns =>
          have hns : ns.map erase = ns := (List.map_congr_left hparts).trans (List.map_id ns)
          rw [erase, eraseEach_eq, hns]
      | _ => cases h _ .refl

/-! ## Level by level -/

/-- Terms that are put together the same way, from the same expressions and from statements that are related. -/
inductive Mirrors (same : Term → Term → Prop) : Term → Term → Prop where
  | expression {n : Term} : n.IsExpression → Mirrors same n n
  | print {value : Term} : value.IsExpression → Mirrors same (.print value) (.print value)
  | block {ns ns' : List Term} : List.Forall₂ same ns ns' → Mirrors same (.block ns) (.block ns')
  | braced {body body' : Term} : same body body' → Mirrors same (.braced body) (.braced body')
  | branch {condition body body' : Term} {otherwise otherwise' : Option Term} : condition.IsExpression →
      same body body' → Option.Rel same otherwise otherwise' →
      Mirrors same (.ifElse condition body otherwise) (.ifElse condition body' otherwise')
  | elseClause {nested nested' inside inside' : Option Term} : Option.Rel same nested nested' →
      Option.Rel same inside inside' → Mirrors same (.elseClause nested inside) (.elseClause nested' inside')
  | loop {condition body body' : Term} : condition.IsExpression → same body body' →
      Mirrors same (.whileLoop condition body) (.whileLoop condition body')
  | define {name : String} {params : List String} {body body' : Term} : same body body' →
      Mirrors same (.define name params body) (.define name params body')

/-- The relation can be read from either side, so one simulation gives both directions. -/
theorem Mirrors.flip {same : Term → Term → Prop} {n n' : Term} (h : Mirrors same n n') :
    Mirrors (fun t t' => same t' t) n' n := by
  cases h with
  | expression hn => exact .expression hn
  | print hvalue => exact .print hvalue
  | block hns => exact .block hns.flip
  | braced hbody => exact .braced hbody
  | branch hcondition hbody hotherwise => exact .branch hcondition hbody (rel_flip hotherwise)
  | elseClause hnested hinside => exact .elseClause (rel_flip hnested) (rel_flip hinside)
  | loop hcondition hbody => exact .loop hcondition hbody
  | define hbody => exact .define hbody

/-- `n'` is the term `n`, which has expressions where they belong, without `return`. -/
def Erased (n n' : Term) : Prop := n.WellSorted ∧ n' = n.erase

/-- An expression contains no `return`, so erasing leaves it alone. -/
theorem IsExpression.erased {n : Term} (h : n.IsExpression) : Erased n n := ⟨h.wellSorted, h.erase_eq.symm⟩

/-- Unless a term is a `return` itself, erasing only changes the statements inside it. -/
theorem Erased.mirrors {n n' : Term} (h : Erased n n') (hn : ∀ value, n ≠ .giveBack value) :
    Mirrors Erased n n' := by
  obtain ⟨hsorted, rfl⟩ := h
  have hpart : ∀ p ∈ n.parts, Erased p p.erase := fun p hp => ⟨hsorted.part hp, rfl⟩
  have hrel : ∀ {p? : Option Term}, (∀ p ∈ p?, p ∈ n.parts) → Option.Rel Erased p? (p?.map erase) := by
    intro p? hp?
    cases p? with
    | none => exact .none
    | some p => exact .some (hpart p (hp? p rfl))
  by_cases hhead : n.hasExpressionHead = true
  · have hexpression := hsorted.isExpression hhead
    rw [hexpression.erase_eq]
    exact .expression hexpression
  · cases n with
    | print value =>
        have hvalue : value.IsExpression := hsorted.operand (List.mem_singleton_self value)
        rw [erase, hvalue.erase_eq]
        exact .print hvalue
    | block ns =>
        rw [erase, eraseEach_eq]
        refine .block (List.forall₂_map_right_iff.mpr (List.forall₂_same.mpr hpart))
    | braced body => exact .braced (hpart body (by simp [parts]))
    | ifElse condition body otherwise =>
        have hcondition : condition.IsExpression := hsorted.operand (List.mem_singleton_self condition)
        rw [erase, hcondition.erase_eq, erase?_eq]
        exact .branch hcondition (hpart body (by simp [parts])) (hrel (by simp_all [parts]))
    | elseClause nested inside =>
        rw [erase, erase?_eq, erase?_eq]
        exact .elseClause (hrel (by simp_all [parts])) (hrel (by simp_all [parts]))
    | whileLoop condition body =>
        have hcondition : condition.IsExpression := hsorted.operand (List.mem_singleton_self condition)
        rw [erase, hcondition.erase_eq]
        exact .loop hcondition (hpart body (by simp [parts]))
    | define name params body => exact .define (hpart body (by simp [parts]))
    | giveBack value => exact absurd rfl (hn value)
    | _ => exact absurd rfl hhead

end Term

/-! ## One round -/

namespace Eval

open Term (Mirrors Erased)

variable {same : Term → Term → Prop}

/-- **Terms that mirror each other do the same**, if related terms do. -/
theorem mirrors_simulates {n m : Nat} (hnm : n ≤ m) {t t' : Term} (h : Mirrors same t t')
    (hrefl : ∀ {t : Term}, t.IsExpression → same t t) {ev ev' : Term → Eval Float}
    (hev : ∀ {t t' : Term} {base : Env}, same t t' → Simulates (uptoBodies same) base (ev t) (ev' t'))
    (base : Env) :
    Simulates (uptoBodies same) base (step .failing n ev t) (step .failing m ev' t') := by
  have hexpression : ∀ {t : Term}, t.IsExpression → Simulates (uptoBodies same) base (ev t) (ev' t) :=
    fun ht => hev (hrefl ht)
  have hoption : ∀ {t? t'? : Option Term}, Option.Rel same t? t'? →
      Option.Rel (fun t t' => Simulates (uptoBodies same) base (ev t) (ev' t')) t? t'? :=
    fun ht => rel_mono (fun ht => hev ht) ht
  cases h with
  | expression ht =>
      -- a call is an expression, too: it finds related bodies
      refine step_simulates .failing .failing (fun hd _ => hev hd.body) hnm trivial
        (fun hp => hexpression (ht.exposed hp)) fun hdefine => ?_
      rw [hdefine] at ht
      cases ht _ .refl
  | print hvalue => exact print_simulates (hexpression hvalue)
  | block hns => exact sequence_simulates (hns.imp fun _ _ ht => hev ht) 0
  | braced hbody => exact hev hbody
  | branch hcondition hbody hotherwise =>
      exact branch_simulates (hexpression hcondition) (hev hbody) (hoption hotherwise)
  | elseClause hnested hinside =>
      cases hnested with
      | none => exact optional_simulates (hoption hinside)
      | some ht => exact hev ht
  | loop hcondition hbody => exact .repeatWhile (hexpression hcondition) (hev hbody) hnm 0
  | define hbody => exact define_simulates trivial ⟨rfl, rfl, hbody⟩

/-! ## Evaluation -/

/-- **Erasing `return` keeps what a term does**: the term without it needs no more fuel. -/
theorem eval_simulates_erased {n m : Nat} (hnm : n ≤ m) {t t' : Term} (h : Erased t t') (base : Env) :
    Simulates (uptoBodies Erased) base (eval n t) (eval m t') := by
  induction n generalizing m t t' base with
  | zero => exact .outOfFuel
  | succ n ih =>
      obtain ⟨m, rfl⟩ : ∃ k, m = k + 1 := ⟨m - 1, by omega⟩
      by_cases hreturn : ∃ value, t = .giveBack value
      · obtain ⟨value, rfl⟩ := hreturn
        obtain ⟨hsorted, rfl⟩ := h
        cases value with
        | none => exact .pure 0
        | some value => exact ih (by omega) ⟨hsorted.part (List.mem_singleton_self value), rfl⟩ base
      · have hmirrors := h.mirrors fun value heq => hreturn ⟨value, heq⟩
        exact mirrors_simulates (by omega) hmirrors (fun ht => ht.erased)
          (fun {_ _ base} ht => ih (by omega) ht base) base

/-- **Writing `return` keeps what a term does**: it takes one step more wherever it stands. -/
theorem erased_simulates_eval {n m : Nat} (hnm : 2 * n ≤ m) {t t' : Term} (h : Erased t' t) (base : Env) :
    Simulates (uptoBodies fun t t' => Erased t' t) base (eval n t) (eval m t') := by
  induction n generalizing m t t' base with
  | zero => exact .outOfFuel
  | succ n ih =>
      obtain ⟨m, rfl⟩ : ∃ k, m = k + 2 := ⟨m - 2, by omega⟩
      by_cases hreturn : ∃ value, t' = .giveBack value
      · obtain ⟨value, rfl⟩ := hreturn
        obtain ⟨hsorted, rfl⟩ := h
        cases value with
        | none => exact .pure 0
        | some value =>
            -- one step goes to `return`, and the next one to its value
            have hvalue : value.IsExpression := hsorted.operand (List.mem_singleton_self value)
            have hmirrors : Mirrors (fun t t' => Erased t' t) value value := .expression hvalue
            show Simulates _ base (eval (n + 1) value.erase) (eval (m + 1) value)
            rw [hvalue.erase_eq]
            exact mirrors_simulates (by omega) hmirrors (fun ht => ht.erased)
              (fun {_ _ base} ht => ih (by omega) ht base) base
      · have hmirrors := (h.mirrors fun value heq => hreturn ⟨value, heq⟩).flip
        exact mirrors_simulates (by omega) hmirrors (fun ht => ht.erased)
          (fun {_ _ base} ht => ih (by omega) ht base) base

end Eval

/-! ## States and terms that were read -/

namespace Parse

/-- The parser can build this statement. -/
def Builds (term : Term) : Prop := ∃ s u, next s = (.ok (some term), u)

/-- The parser can build this body of a function. -/
def BuildsBody (body : Term) : Prop := ∃ s u, block statement s = (.ok body, u)

/-- This is all that is used of terms from the parser. -/
theorem Builds.wellSorted {term : Term} (h : Builds term) : term.WellSorted := by
  obtain ⟨s, u, hnext⟩ := h
  obtain ⟨known, defs, rest, hstatement, -⟩ := next_eq_some hnext
  exact hstatement.wellSorted

theorem BuildsBody.wellSorted {body : Term} (h : BuildsBody body) : body.WellSorted := by
  obtain ⟨s, u, hblock⟩ := h
  obtain ⟨known, defs, rest, -, hbody⟩ := Grammar.block_gathers Grammar.statement_gathers hblock
  exact hbody.wellSorted

end Parse

/-- The function without `return` in its body. -/
def Frame.erase (frame : Frame) : Frame :=
  { frame with definition := { frame.definition with body := frame.definition.body.erase } }

/-- The state without `return` in the bodies of its functions. -/
def Env.erase (env : Env) : Env :=
  { env with functions := ⟨env.functions.entries.map fun entry => (entry.1, entry.2.erase)⟩ }

/-- A state corresponds to the one with erased bodies. -/
theorem Env.upto_erase {env : Env}
    (h : ∀ entry ∈ env.functions.entries, entry.2.definition.body.WellSorted) :
    Env.Upto Term.Erased env env.erase := by
  refine ⟨rfl, rfl, ?_, rfl, rfl⟩
  refine List.forall₂_map_right_iff.mpr (List.forall₂_same.mpr fun entry hentry => ⟨rfl, ?_⟩)
  exact ⟨⟨rfl, rfl, h entry hentry, rfl⟩, rfl, rfl⟩

/-- What corresponds to a frame is the erased frame and no other. -/
theorem Frame.Upto.eq_erase {frame frame' : Frame} (h : Frame.Upto Term.Erased frame frame') :
    frame' = frame.erase := by
  obtain ⟨⟨name, params, body⟩, locals, called⟩ := frame
  obtain ⟨⟨name', params', body'⟩, locals', called'⟩ := frame'
  obtain ⟨⟨hname, hparams, -, hbody⟩, hlocals, hcalled⟩ := h
  dsimp only at hname hparams hbody hlocals hcalled
  rw [hname, hparams, hbody, hlocals, hcalled]
  rfl

/-- Nor does any other state correspond to a state. -/
theorem Env.Upto.eq_erase {a b : Env} (h : Env.Upto Term.Erased a b) : b = a.erase := by
  obtain ⟨globals, arrays, ⟨entries⟩, active, sink⟩ := a
  obtain ⟨globals', arrays', ⟨entries'⟩, active', sink'⟩ := b
  obtain ⟨rfl, rfl, hfunctions, rfl, rfl⟩ := h
  have hentries : List.Forall₂ (· = ·) (entries.map fun entry => (entry.1, entry.2.erase)) entries' := by
    refine List.forall₂_map_left_iff.mpr (hfunctions.imp fun entry entry' hentry => ?_)
    exact Prod.ext hentry.1.symm hentry.2.eq_erase.symm
  rw [List.forall₂_eq_eq_eq] at hentries
  rw [Env.erase, hentries]

namespace Eval

/-- Evaluating `term` ends with the result `r` and the state `after`. -/
def Evaluates (term : Term) (env : Env) (r : Except RuntimeError Float) (after : Env) : Prop :=
  ∃ fuel, eval fuel term env = some (r, after)

/-- **`return` changes nothing.** Let the parser have built the statement and the bodies of all registered functions.
Without `return`, anywhere, the statement ends with a result if and only if it ends with that result as it was written:
the same value or the same failure, and the same state but for `return` in the bodies of functions. -/
theorem evaluates_erase_iff {term : Term} {env : Env} (hterm : Parse.Builds term)
    (hbodies : ∀ entry ∈ env.functions.entries, Parse.BuildsBody entry.2.definition.body)
    (r : Except RuntimeError Float) (after' : Env) :
    Evaluates term.erase env.erase r after' ↔ ∃ after, Evaluates term env r after ∧ after' = after.erase := by
  have hupto : Env.Upto Term.Erased env env.erase :=
    Env.upto_erase fun entry hentry => (hbodies entry hentry).wellSorted
  constructor
  · rintro ⟨fuel, heval⟩
    obtain ⟨after, hafter, hsim, -⟩ := erased_simulates_eval (Nat.le_refl (2 * fuel)) ⟨hterm.wellSorted, rfl⟩
      env.erase (.refl env.erase) hupto.flip heval
    exact ⟨after, ⟨_, hafter⟩, hsim.flip.eq_erase⟩
  · rintro ⟨after, ⟨fuel, heval⟩, rfl⟩
    obtain ⟨after', hafter', hsim, -⟩ := eval_simulates_erased (Nat.le_refl fuel) ⟨hterm.wellSorted, rfl⟩
      env (.refl env) hupto heval
    rw [hsim.eq_erase] at hafter'
    exact ⟨fuel, hafter'⟩

/-- A `return` around a call, and one in front of an assignment in the body of the function: the array is bound all the
same, and the value of the call is that of the assignment. -/
theorem evaluates_erase_iff_not_last :
    let f : Definition :=
      ⟨"f", [], .braced (.block [.giveBack (some (.boolean true)), .assign "a" (.array [])])⟩
    let env := Env.empty.register f
    ∃ after, Evaluates (.giveBack (some (.call "f" []))) env (.ok 0) after ∧
      Evaluates (.call "f" []) env.erase (.ok 0) after.erase ∧ after.array? "a" = some #[] := by
  intro f env
  let after := { env with arrays := ⟨[("a", #[])]⟩, functions := ⟨[("f", ⟨f, ∅, true⟩)]⟩ }
  have hterm : Parse.Builds (.giveBack (some (.call "f" []))) :=
    ⟨.ofTokens [⟨.identifier, "return", ⟨1, 1⟩⟩, ⟨.identifier, "f", ⟨1, 8⟩⟩, ⟨.leftParen, "(", ⟨1, 9⟩⟩,
      ⟨.rightParen, ")", ⟨1, 10⟩⟩, ⟨.semicolon, ";", ⟨1, 11⟩⟩, .finish ⟨1, 12⟩] ["f"], _, rfl⟩
  have hbody : Parse.BuildsBody f.body :=
    ⟨.ofTokens [⟨.operator, "\x7b", ⟨1, 1⟩⟩, ⟨.identifier, "return", ⟨1, 2⟩⟩, ⟨.boolean, "true", ⟨1, 9⟩⟩,
      ⟨.semicolon, ";", ⟨1, 13⟩⟩, ⟨.identifier, "a", ⟨1, 14⟩⟩, ⟨.assignment, "=", ⟨1, 15⟩⟩,
      ⟨.leftBracket, "[", ⟨1, 16⟩⟩, ⟨.rightBracket, "]", ⟨1, 17⟩⟩, ⟨.semicolon, ";", ⟨1, 18⟩⟩,
      ⟨.operator, "\x7d", ⟨1, 19⟩⟩, .finish ⟨1, 20⟩] [], _, rfl⟩
  have hbodies : ∀ entry ∈ env.functions.entries, Parse.BuildsBody entry.2.definition.body := by
    intro entry hentry
    rw [List.mem_singleton.mp hentry]
    exact hbody
  have heval : Evaluates (.giveBack (some (.call "f" []))) env (.ok 0) after := ⟨6, rfl⟩
  exact ⟨after, heval, (evaluates_erase_iff hterm hbodies _ _).mpr ⟨after, heval, rfl⟩, rfl⟩

end Eval
end Abacus
