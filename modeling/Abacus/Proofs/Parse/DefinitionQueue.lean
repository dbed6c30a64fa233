import Abacus.Proofs.Parse.Effects

/-!
# `Parse.DefinitionQueue` — the queue is the post-order of what was read

Definitions are queued on the way, wherever in a statement they stand. Behind a statement the queue has grown by the
definitions in its tree, **in post-order**, and by nothing else; so with every statement it grows by that statement's
definitions. Taking empties it, and when that is done does not matter: what is taken in all is what was queued in all.

A statement that fails has no tree. The queue has then grown by definitions that stand one behind the other in the
tokens that were passed, each of them complete.

## Contents
- `Term.postorder`, `Term.definition?` — the terms inside a term, and those that define;
- `Completed` — definitions that were read one behind the other;
- `Drives` — statements read with the queue taken in between;
- `queue_is_postorder` — the queue.
-/

namespace Abacus

/-! ## Post-order -/

namespace Term

/-- All terms inside a term: what is inside its parts from left to right, and the term itself last. -/
def postorder (n : Term) : List Term :=
  n.parts.attach.flatMap (fun p => p.1.postorder) ++ [n]
termination_by n
decreasing_by exact sizeOf_lt_of_mem_parts p.2

theorem postorder_eq (n : Term) : n.postorder = n.parts.flatMap postorder ++ [n] := by
  rw [postorder]
  simp

/-- The function that a term defines. -/
def definition? : Term → Option Definition
  | .define name params body => some { name, params, body }
  | _ => none

/-- The list of definitions is the part of the post-order that defines. -/
theorem definitions_eq_filterMap (n : Term) : n.definitions = n.postorder.filterMap definition? := by
  induction n using induction_parts with
  | h n ih =>
      have hparts : n.parts.flatMap definitions = (n.parts.flatMap postorder).filterMap definition? := by
        rw [List.filterMap_flatMap, List.flatMap_def, List.flatMap_def, List.map_congr_left ih]
      rw [postorder_eq, List.filterMap_append, ← hparts]
      cases n with
      | define name params body => simp [definitions, parts, definition?]
      | _ =>
          rw [definitions_eq_parts (by simp)]
          simp [definition?]

end Term

namespace Parse

/-! ## Complete definitions -/

/-- Between `ts` and `rest` stand complete definitions, one behind the other and with other tokens between them. What
they define, with what is defined inside them, is `defs`. -/
inductive Completed : List Token → List Token → List Definition → Prop where
  | none {ts rest : List Token} : rest <:+ ts → Completed ts rest []
  | define {ts start stop rest : List Token} {known known' : List String} {name : String} {params : List String}
      {body : Term} {more : List Definition} :
      start <:+ ts →
      Grammar.Statement known start (.define name params body) known' (Term.define name params body).definitions stop →
      Completed stop rest more → Completed ts rest ((Term.define name params body).definitions ++ more)

namespace Completed

variable {ts mid rest : List Token} {defs more : List Definition}

theorem of_suffix (hsuf : mid <:+ ts) (h : Completed mid rest defs) : Completed ts rest defs := by
  cases h with
  | none hrest => exact .none (hrest.trans hsuf)
  | define hstart hstatement hmore => exact .define (hstart.trans hsuf) hstatement hmore

theorem trans (h : Completed ts mid defs) (h' : Completed mid rest more) : Completed ts rest (defs ++ more) := by
  induction h with
  | none hmid => exact h'.of_suffix hmid
  | define hstart hstatement _ ih =>
      rw [List.append_assoc]
      exact .define hstart hstatement (ih h')

end Completed

/-- The queue has grown by complete definitions, and no function has been forgotten. -/
def Grows (s u : State) : Prop :=
  s.known ⊆ u.known ∧ ∃ defs, u.queued = s.queued ++ defs ∧ Completed s.tokens u.tokens defs

theorem grows_path : Path Grows where
  refl s := ⟨List.Subset.refl _, [], by simp, .none (List.suffix_refl _)⟩
  trans := by
    rintro s t u ⟨hknown, defs, hqueued, hcompleted⟩ ⟨hknown', defs', hqueued', hcompleted'⟩
    refine ⟨List.Subset.trans hknown hknown', defs ++ defs', ?_, hcompleted.trans hcompleted'⟩
    rw [hqueued', hqueued, List.append_assoc]
  next s := ⟨List.Subset.refl _, [], by simp [State.next], .none s.next_suffix⟩
  learn s name := ⟨List.subset_cons_self _ _, [], by simp, .none (List.suffix_refl _)⟩
  define := by
    intro s name params body known defs rest h
    refine ⟨fun x hx => h.mem_known_iff.mpr (.inl hx), defs, rfl, ?_⟩
    obtain rfl := h.definitions_eq
    have hone : Completed s.tokens rest ((Term.define name params body).definitions ++ []) :=
      .define (List.suffix_refl _) h (.none (List.suffix_refl _))
    rwa [List.append_nil] at hone

/-- The parentheses are not in order, or they might have been checked before. -/
theorem next_eq_checked {s u : State} {r : Except Unexpected (Option Term)} (h : next s = (r, u)) :
    ((∃ e, r = .error e) ∧ u = s.checked) ∨ next s.checked = (r, u) := by
  by_cases hscan : s.scanned = true
  · have hchecked : s.checked = s := by rw [State.checked, ← hscan]
    exact .inr (hchecked ▸ h)
  · rw [next_unchecked (by simpa using hscan)] at h
    split at h
    · cases h
      exact .inl ⟨⟨_, rfl⟩, rfl⟩
    · exact .inr h

/-- What a failed call for a statement leaves. -/
theorem grows_of_next_error {s u : State} {e : Unexpected} (h : next s = (.error e, u)) : Grows s u := by
  rcases next_eq_checked h with ⟨-, rfl⟩ | h
  · exact grows_path.refl s
  · rw [next_checked rfl] at h
    split at h
    · cases h
    · have hgrows := grows_path.statement s.checked
      split at h
      · cases h
      · next e' t heq =>
        cases h
        rw [heq] at hgrows
        exact hgrows

/-! ## The queue -/

/-- A statement adds the definitions of its tree. -/
theorem queued_of_next {s u : State} {n : Term} (h : next s = (.ok (some n), u)) :
    u.queued = s.queued ++ n.postorder.filterMap Term.definition? := by
  obtain ⟨known, defs, rest, hstatement, rfl⟩ := next_eq_some h
  rw [← n.definitions_eq_filterMap, ← hstatement.definitions_eq]
  rfl

/-- At the end nothing is queued. -/
theorem queued_of_next_none {s u : State} (h : next s = (.ok none, u)) : u.queued = s.queued := by
  rcases next_eq_checked h with ⟨⟨e, he⟩, -⟩ | h
  · cases he
  · rw [next_checked rfl] at h
    split at h
    · cases h
      rfl
    · split at h <;> cases h

/-- Calls for the next statement that succeed, with calls that take the queue anywhere between them: the statements that
were read, and all definitions that were taken. -/
inductive Drives : State → List Term → List Definition → State → Prop where
  | done (s : State) : Drives s [] [] s
  | statement {s t u : State} {n : Term} {ns : List Term} {taken : List Definition} :
      next s = (.ok (some n), t) → Drives t ns taken u → Drives s (n :: ns) taken u
  | atEnd {s t u : State} {ns : List Term} {taken : List Definition} :
      next s = (.ok none, t) → Drives t ns taken u → Drives s ns taken u
  | take {s t u : State} {ns : List Term} {defs taken : List Definition} :
      takeDefinitions s = (.ok defs, t) → Drives t ns taken u → Drives s ns (defs ++ taken) u

/-- Nothing is lost or queued twice: what was taken and what still waits is what waited before, and the definitions of
the statements in order. -/
theorem Drives.conserves {s u : State} {ns : List Term} {taken : List Definition} (h : Drives s ns taken u) :
    taken ++ u.queued = s.queued ++ ns.flatMap fun n => n.postorder.filterMap Term.definition? := by
  induction h with
  | done s => simp
  | statement hnext _ ih => rw [ih, queued_of_next hnext, List.flatMap_cons, List.append_assoc]
  | atEnd hnext _ ih => rw [ih, queued_of_next_none hnext]
  | take htake _ ih =>
      cases htake
      rw [List.append_assoc, ih]
      rfl

/-- A take at the end leaves nothing waiting, so with it everything has been taken. -/
theorem Drives.takes_all {s u v : State} {ns : List Term} {taken last : List Definition} (h : Drives s ns taken u)
    (htake : takeDefinitions u = (.ok last, v)) :
    taken ++ last = (s.queued ++ ns.flatMap fun n => n.postorder.filterMap Term.definition?) ∧ v.queued = [] := by
  cases htake
  exact ⟨h.conserves, rfl⟩

/-- **The queue is the post-order of what was read.** A statement that is read adds the definitions of its tree in
post-order, and makes their names known. One that fails adds definitions that are complete, and forgets no name. Taking
hands over all that waits, and nothing else changes. However statements are read and definitions taken, what is taken
and still waits is what waited before, followed by the definitions of each statement; and if the last call takes, then
all of these have been taken, each of them once. -/
theorem queue_is_postorder (s : State) :
    (∀ n u, next s = (.ok (some n), u) →
      u.queued = s.queued ++ n.postorder.filterMap Term.definition? ∧
        ∀ x, x ∈ u.known ↔ x ∈ s.known ∨ ∃ d ∈ n.postorder.filterMap Term.definition?, d.name = x) ∧
    (∀ e u, next s = (.error e, u) →
      s.known ⊆ u.known ∧ ∃ defs, u.queued = s.queued ++ defs ∧ Completed s.tokens u.tokens defs) ∧
    takeDefinitions s = (.ok s.queued, { s with queued := [] }) ∧
    ∀ ns taken u, Drives s ns taken u →
      taken ++ u.queued = (s.queued ++ ns.flatMap fun n => n.postorder.filterMap Term.definition?) ∧
        ∀ last v, takeDefinitions u = (.ok last, v) →
          taken ++ last = (s.queued ++ ns.flatMap fun n => n.postorder.filterMap Term.definition?) ∧ v.queued = [] := by
  refine ⟨fun n u h => ⟨queued_of_next h, fun x => ?_⟩, fun e u h => grows_of_next_error h, rfl,
    fun ns taken u h => ⟨h.conserves, fun last v htake => h.takes_all htake⟩⟩
  obtain ⟨known, defs, rest, hstatement, rfl⟩ := next_eq_some h
  rw [← n.definitions_eq_filterMap, ← hstatement.definitions_eq]
  exact hstatement.mem_known_iff

/-- Of `def f() { def g() { true } }` the inner definition is queued first. Both are taken, `def h() { true }` is read
and its definition is taken as well: these are all. What comes then, `if true { def k() { true } +`, fails with its
definition complete. -/
theorem queue_is_postorder_nested :
    let nested : List Token :=
      [⟨.identifier, "def", ⟨1, 1⟩⟩, ⟨.identifier, "f", ⟨1, 5⟩⟩, ⟨.leftParen, "(", ⟨1, 6⟩⟩, ⟨.rightParen, ")", ⟨1, 7⟩⟩,
        ⟨.operator, "\x7b", ⟨1, 9⟩⟩, ⟨.identifier, "def", ⟨1, 11⟩⟩, ⟨.identifier, "g", ⟨1, 15⟩⟩,
        ⟨.leftParen, "(", ⟨1, 16⟩⟩, ⟨.rightParen, ")", ⟨1, 17⟩⟩, ⟨.operator, "\x7b", ⟨1, 19⟩⟩,
        ⟨.boolean, "true", ⟨1, 21⟩⟩, ⟨.operator, "\x7d", ⟨1, 26⟩⟩, ⟨.operator, "\x7d", ⟨1, 28⟩⟩]
    let single : List Token :=
      [⟨.identifier, "def", ⟨2, 1⟩⟩, ⟨.identifier, "h", ⟨2, 5⟩⟩, ⟨.leftParen, "(", ⟨2, 6⟩⟩, ⟨.rightParen, ")", ⟨2, 7⟩⟩,
        ⟨.operator, "\x7b", ⟨2, 9⟩⟩, ⟨.boolean, "true", ⟨2, 11⟩⟩, ⟨.operator, "\x7d", ⟨2, 16⟩⟩]
    let broken : List Token :=
      [⟨.identifier, "if", ⟨3, 1⟩⟩, ⟨.boolean, "true", ⟨3, 4⟩⟩, ⟨.operator, "\x7b", ⟨3, 9⟩⟩,
        ⟨.identifier, "def", ⟨3, 11⟩⟩, ⟨.identifier, "k", ⟨3, 15⟩⟩, ⟨.leftParen, "(", ⟨3, 16⟩⟩,
        ⟨.rightParen, ")", ⟨3, 17⟩⟩, ⟨.operator, "\x7b", ⟨3, 19⟩⟩, ⟨.boolean, "true", ⟨3, 21⟩⟩,
        ⟨.operator, "\x7d", ⟨3, 26⟩⟩, ⟨.operator, "+", ⟨3, 28⟩⟩]
    let body : Term := .braced (.block [.boolean true])
    let n : Term := .define "f" [] (.braced (.block [.define "g" [] body]))
    let m : Term := .define "h" [] body
    let g : Definition := ⟨"g", [], body⟩
    let f : Definition := ⟨"f", [], .braced (.block [.define "g" [] body])⟩
    let h : Definition := ⟨"h", [], body⟩
    let k : Definition := ⟨"k", [], body⟩
    let s := parserOf (nested ++ single ++ broken) ⟨3, 29⟩ []
    ∃ t t' u u' e v, next s = (.ok (some n), t) ∧ takeDefinitions t = (.ok [g, f], t') ∧
      next t' = (.ok (some m), u) ∧ takeDefinitions u = (.ok [h], u') ∧ Drives s [n, m] ([g, f] ++ []) u ∧
      [g, f] ++ [] ++ [h] = ([n, m].flatMap fun n => n.postorder.filterMap Term.definition?) ∧ u'.queued = [] ∧
      next u' = (.error e, v) ∧ v.queued = [k] ∧ Completed u'.tokens v.tokens [k] := by
  intro nested single broken body n m g f h k s
  let t := s.behind ["g", "f"] [g, f] (single ++ broken)
  let u := s.behind ["h", "g", "f"] [h] broken
  let u' := s.behind ["h", "g", "f"] [] broken
  let v := s.behind ["k", "h", "g", "f"] [k] [⟨.operator, "+", ⟨3, 28⟩⟩]
  have hfirst : next s = (.ok (some n), t) := rfl
  have htaken : takeDefinitions t = (.ok [g, f], { t with queued := [] }) := (queue_is_postorder t).2.2.1
  have hsecond : next { t with queued := [] } = (.ok (some m), u) := rfl
  have hlast : takeDefinitions u = (.ok [h], u') := (queue_is_postorder u).2.2.1
  have hfailed : next u' = (.error (.ofToken ⟨.operator, "+", ⟨3, 28⟩⟩), v) := rfl
  have hdrives : Drives s [n, m] ([g, f] ++ []) u :=
    .statement hfirst (.take htaken (.statement hsecond (.done u)))
  obtain ⟨hall, hempty⟩ := ((queue_is_postorder s).2.2.2 _ _ u hdrives).2 _ u' hlast
  -- the last definition is what the failed call has added
  obtain ⟨-, defs, hdefs, hcompleted⟩ := (queue_is_postorder u').2.1 _ v hfailed
  obtain rfl : [k] = defs := hdefs
  exact ⟨t, _, u, u', _, v, hfirst, htaken, hsecond, hlast, hdrives, hall, hempty, hfailed, rfl, hcompleted⟩

end Parse
end Abacus
