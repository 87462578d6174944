import Michelson.Proofs.Advancing
import Michelson.Proofs.Positions

/-!
# The discipline of backtracking

Alternatives are tried one after another on one state, so each of them has to leave it
in a condition from which the next one can start. For the rules of the grammar this
means five things. The level of nesting is that of the beginning, however the rule ends.
A rule that misses gives the whole cursor back. A rule that reads something has passed
some text. The record of the furthest miss does not go back. And what the rule does is
settled by the cursor and the level alone: the record, and the journal, are only written.

Inside the grammar there are rules that miss on the way and leave the cursor where it
is: the names of macros, the sections of a contract, the entries of a map. What is said
here holds at the rules that alternatives are made of.

* `Disciplined` lists the five properties.
* `GivesBack` and `Blind` are treated here, the others in the modules on frames and on
  rules that go on.
* `backtracking_disciplined` is the statement for all rules of the grammar and for lists
  of any items.
-/

namespace Michelson

open Rule

namespace Rule

variable {α β : Type}

/-! ## The cursor is given back -/

/-- Where the rule misses, the cursor is the one with which it began. -/
def GivesBack ⦃α : Type⦄ (r : Rule α) : Prop :=
  ∀ limit s t, r limit s = ⟨.miss, t⟩ → t.cursor = s.cursor

/-- An attempt that misses goes back to where it began. -/
theorem givesBack_attempt (r : Rule α) : GivesBack (attempt r) := by
  intro limit s t h
  rw [attempt] at h
  rcases hrun : r limit s with ⟨a | _ | stop, u⟩ <;> rw [hrun] at h <;> cases h
  rfl

/-- Failing moves no cursor. -/
theorem givesBack_fail (what : Expectation) : GivesBack (fail (α := α) what) := by
  intro limit s t h
  cases h
  rfl

theorem givesBack_exhausted : GivesBack (exhausted (α := α)) := fun _ _ _ h => nomatch h

/-- The depth is no part of the cursor. -/
theorem givesBack_nested {r : Rule α} (h : GivesBack r) : GivesBack (nested r) := by
  intro limit s t hmiss
  rcases nested_cases r limit s with hrun | ⟨e, hrun⟩ <;> rw [hrun] at hmiss
  · rw [deeper] at hmiss
    rcases hdeep : r limit { s with depth := s.depth + 1 } with ⟨v, u⟩
    rw [hdeep] at hmiss
    cases hmiss
    exact h limit { s with depth := s.depth + 1 } u hdeep
  · cases hmiss

/-- Behind a rule that gives the cursor back nothing may miss. -/
theorem givesBack_bind {r : Rule α} {k : α → Rule β} (h : GivesBack r)
    (hk : ∀ a, NeverMisses (k a)) : GivesBack (r >>= k) := by
  intro limit s t hmiss
  rcases hrun : r limit s with ⟨a | _ | stop, u⟩
  · rw [bind_ok hrun] at hmiss
    exact absurd hmiss (hk a).ne
  · rw [bind_miss hrun] at hmiss
    cases hmiss
    exact h limit s t hrun
  · rw [bind_halt hrun] at hmiss
    cases hmiss

/-- Of several alternatives only the last has to give the cursor back. -/
theorem givesBack_firstOf {last : Rule α} (h : GivesBack last) (rs : List (Rule α)) :
    GivesBack (firstOf last rs) := by
  induction rs with
  | nil => exact h
  | cons r rs ih =>
    intro limit s t hmiss
    rcases hopt : optional r limit s with ⟨a? | _ | stop, u⟩
    · rcases optional_eq_ok hopt with ⟨a, rfl, -⟩ | ⟨rfl, hc⟩
      · rw [firstOf, bind_ok hopt] at hmiss
        cases hmiss
      · rw [firstOf, bind_ok hopt] at hmiss
        exact (ih limit u t hmiss).trans hc
    · exact absurd hopt (NeverMisses.optional r).ne
    · rw [firstOf, bind_halt hopt] at hmiss
      cases hmiss

/-- Behind the rule only an event is noted down, which cannot miss. -/
theorem givesBack_recording (e : Position → α → Event) {r : Rule α} (h : GivesBack r) :
    GivesBack (recording e r) := by
  intro limit s t hmiss
  rw [recording, position_bind] at hmiss
  refine givesBack_bind h (fun a => .bind ?_ fun _ => .pure a) limit s t hmiss
  exact fun _ _ h => nomatch h

/-- An event that is noted down leaves the cursor where it is. -/
theorem givesBack_marking (e : Position → Event) {k : Unit → Rule α} (h : GivesBack (k ())) :
    GivesBack (marking e >>= k) :=
  fun limit s t hmiss => h limit (s.log (e s.cursor.position)) t hmiss

theorem givesBack_braced (item : Rule α) : GivesBack (braced item) := givesBack_attempt _

/-- The first item is an attempt, and what follows it never misses. -/
theorem givesBack_many1 (item : Rule α) : GivesBack (many1 item) :=
  givesBack_bind (givesBack_attempt item) fun _ =>
    .bind (fun _ _ h => nomatch h) fun _ =>
      .bind (.manyWithin item _) fun _ => .pure _

/-! ## What is recorded is not read -/

/-- The states agree in all that a rule may look at. -/
structure SameOutlook (s t : State) : Prop where
  cursor : s.cursor = t.cursor
  depth : s.depth = t.depth

/-- The rule does not look at the record of the furthest miss, nor at the journal: from
states that differ in these alone it ends in the same way, in the same place and on the
same level. -/
def Blind ⦃α : Type⦄ (r : Rule α) : Prop :=
  ∀ limit s t, SameOutlook s t →
    (r limit s).verdict = (r limit t).verdict ∧ SameOutlook (r limit s).state (r limit t).state

theorem blind_pure (a : α) : Blind (pure a : Rule α) := fun _ _ _ h => ⟨rfl, h⟩

theorem blind_fail (what : Expectation) : Blind (fail (α := α) what) :=
  fun _ _ _ h => ⟨rfl, h.cursor, h.depth⟩

/-- Where the cursor is set to does not depend on the state. -/
theorem blind_moveTo (c : Cursor) : Blind (moveTo c) := fun _ _ _ h => ⟨rfl, rfl, h.depth⟩

/-- Two runs of the rule end in the same way. -/
theorem Blind.runs {r : Rule α} (h : Blind r) (limit : Option Nat) {s t : State}
    (hst : SameOutlook s t) :
    ∃ v s' t', r limit s = ⟨v, s'⟩ ∧ r limit t = ⟨v, t'⟩ ∧ SameOutlook s' t' := by
  obtain ⟨hverdict, hstate⟩ := h limit s t hst
  exact ⟨_, _, _, rfl, congrArg (Reply.mk · _) hverdict.symm, hstate⟩

/-- Two states that look alike are left looking alike, so the second rule sees no difference either.
-/
theorem blind_bind {r : Rule α} {k : α → Rule β} (h : Blind r)
    (hk : ∀ a, r.Returns a → Blind (k a)) : Blind (r >>= k) := by
  intro limit s t hst
  obtain ⟨v, s', t', hs, ht, hstate⟩ := h.runs limit hst
  rcases v with a | _ | stop
  · rw [bind_ok hs, bind_ok ht]
    exact hk a ⟨limit, s, s', hs⟩ limit s' t' hstate
  · rw [bind_miss hs, bind_miss ht]
    exact ⟨rfl, hstate⟩
  · rw [bind_halt hs, bind_halt ht]
    exact ⟨rfl, hstate⟩

/-- The cursor that is set back to is part of the outlook. -/
theorem blind_optional {r : Rule α} (h : Blind r) : Blind (optional r) := by
  intro limit s t hst
  obtain ⟨v, s', t', hs, ht, hstate⟩ := h.runs limit hst
  rw [optional, optional, hs, ht]
  rcases v with a | _ | stop
  · exact ⟨rfl, hstate⟩
  · exact ⟨rfl, hst.cursor, hstate.depth⟩
  · exact ⟨rfl, hstate⟩

theorem blind_attempt {r : Rule α} (h : Blind r) : Blind (attempt r) := by
  intro limit s t hst
  obtain ⟨v, s', t', hs, ht, hstate⟩ := h.runs limit hst
  rw [attempt, attempt, hs, ht]
  rcases v with a | _ | stop
  · exact ⟨rfl, hstate⟩
  · exact ⟨rfl, hst.cursor, hstate.depth⟩
  · exact ⟨rfl, hstate⟩

/-- Whether the limit is met is told by the level. -/
theorem blind_nested {r : Rule α} (h : Blind r) : Blind (nested r) := by
  intro limit s t hst
  have hdeep : (deeper r limit s).verdict = (deeper r limit t).verdict ∧
      SameOutlook (deeper r limit s).state (deeper r limit t).state := by
    obtain ⟨hverdict, hstate⟩ := h limit { s with depth := s.depth + 1 }
      { t with depth := t.depth + 1 } ⟨hst.cursor, congrArg (· + 1) hst.depth⟩
    exact ⟨hverdict, hstate.cursor, congrArg (· - 1) hstate.depth⟩
  cases limit with
  | none => exact hdeep
  | some l =>
    rw [nested_some, nested_some, hst.depth, hst.cursor]
    split
    · exact ⟨rfl, hst.cursor, hst.depth⟩
    · exact hdeep

/-- A scan looks at the cursor only. -/
theorem blind_scanning (look : Cursor → Except Error (α × Cursor)) : Blind (scanning look) := by
  intro limit s t hst
  rw [scanning, scanning, hst.cursor]
  cases look t.cursor with
  | ok found => exact ⟨rfl, rfl, hst.depth⟩
  | error e => exact ⟨rfl, hst.cursor, hst.depth⟩

/-- **No rule reads what is recorded.** -/
theorem hereditary_blind : Hereditary Blind where
  pure := blind_pure
  bind := blind_bind
  miss _ _ _ h := ⟨rfl, h⟩
  fail := blind_fail
  exhausted _ _ _ h := ⟨rfl, h⟩
  optional := blind_optional
  attempt := blind_attempt
  nested := blind_nested
  advancing h := advancing_of_moveTo (fun h hk => blind_bind h fun a _ => hk a)
    (fun _ => blind_scanning _) blind_moveTo blind_pure (blind_optional h)
  log _ _ _ _ h := ⟨rfl, h.cursor, h.depth⟩
  scanning _ := blind_scanning _
  returned _ what := returned_of_moveTo (fun h hk => blind_bind h fun a _ => hk a)
    (fun _ => blind_scanning _) blind_moveTo (blind_fail what)

/-! ## The discipline -/

/-- What alternatives rely on. -/
structure Disciplined ⦃α : Type⦄ (r : Rule α) : Prop where
  keepsLevel : KeepsLevel r
  givesBack : GivesBack r
  advances : Advances r
  keepsRecord : KeepsRecord r
  blind : Blind r

/-- A rule that has every hereditary property is disciplined if it gives the cursor back
and passes text. -/
theorem Made.disciplined {r : Rule α} (h : r.Made) (hg : GivesBack r) (ha : Advances r) :
    Disciplined r :=
  ⟨h frame_level.hereditary, hg, ha, h frame_record.hereditary, h hereditary_blind⟩

/-- Lists of made items are made. -/
theorem Made.braced {item : Rule α} (h : item.Made) : (braced item).Made :=
  fun _ H => H.handedDown.braced (h H)

theorem Made.many1 {item : Rule α} (h : item.Made) : (many1 item).Made :=
  fun _ H => H.handedDown.many1 (h H)

/-- What lists ask of their items, property by property. The cursor is given back
whatever the items do. -/
structure Lists (item : Rule α) : Prop where
  keepsLevel : KeepsLevel item → KeepsLevel (braced item) ∧ KeepsLevel (many1 item)
  givesBack : GivesBack (braced item) ∧ GivesBack (many1 item)
  bracedAdvances : Onward item → Advances (braced item)
  many1Advances : Advances item → Advances (many1 item)
  keepsRecord : KeepsRecord item → KeepsRecord (braced item) ∧ KeepsRecord (many1 item)
  blind : Blind item → Blind (braced item) ∧ Blind (many1 item)

/-- Each property of a list follows from the same property of its items, or from less. -/
theorem lists (item : Rule α) : Lists item where
  keepsLevel h := ⟨handedDown_keepsLevel.braced h, handedDown_keepsLevel.many1 h⟩
  givesBack := ⟨givesBack_braced item, givesBack_many1 item⟩
  bracedAdvances := advances_braced
  many1Advances := advances_many1
  keepsRecord h := ⟨handedDown_keepsRecord.braced h, handedDown_keepsRecord.many1 h⟩
  blind h := ⟨hereditary_blind.handedDown.braced h, hereditary_blind.handedDown.many1 h⟩

end Rule

/-! ## The rules of the grammar -/

namespace Grammar

/-- All rules of the grammar that begin at a token have the property. -/
structure Knot.Throughout (P : ∀ ⦃α : Type⦄, Rule α → Prop) (g : Knot) : Prop where
  note (σ : Sigil) : P (note σ)
  plainType : P g.plainType
  component : P (g.type true)
  comparable : P g.comparable
  value : P g.value
  block : P g.block
  step : P (step g)
  instruction : P (instruction g)
  macroRule : P (macroRule g)

theorem respected_note (σ : Sigil) : Respected fun _ => note σ :=
  fun _ _ _ C _ _ _ _ => C.passing (C.note σ)

theorem respected_component : Respected fun g => g.type true := fun _ _ _ _ _ _ _ h => h.type true

theorem respected_comparable : Respected fun g => g.comparable := fun _ _ _ _ _ _ _ h => h.comparable

/-- Instructions are rules of the grammar. -/
theorem respected_instruction : Respected instruction := fun _ _ _ C _ _ _ h => C.instruction h

theorem respected_macroRule : Respected macroRule := fun _ _ _ C _ _ _ h => C.macroRule h

/-- A rule of the grammar has every hereditary property. -/
theorem made_tied {α : Type} {rule : Knot → Rule α} (hr : Respected rule) (calls : Nat) :
    (rule (Knot.tied calls)).Made :=
  fun _ H => H.tied hr calls

/-- A rule of the full grammar does in each state what it does with enough calls left. -/
theorem rule_full {α : Type} {rule : Knot → Rule α} (hr : Respected rule) (limit : Option Nat)
    (s : State) :
    rule Knot.full limit s = rule (Knot.enough (s.cursor.rest.length + 1)) limit s := by
  have T := SameText.agreeing (Looser.refl limit)
  have hagree := Knot.agree_tied_full limit (n := s.cursor.rest.length + 1)
    (a := 2 * (s.cursor.rest.length + 1) + 2) (Nat.le_add_right _ _)
  exact (hr T.congruence hagree 1 _ le_rfl le_rfl s s ⟨rfl, trivial, Nat.lt_succ_self _⟩ rfl).eq.symm

/-- A rule that is disciplined with any number of calls left is so in the full grammar. -/
theorem disciplined_full {α : Type} {rule : Knot → Rule α} (hr : Respected rule)
    (h : ∀ calls, Disciplined (rule (Knot.tied calls))) : Disciplined (rule Knot.full) where
  keepsLevel limit s := by
    rw [rule_full hr]
    exact (h _).keepsLevel limit s
  givesBack limit s t hrun := by
    rw [rule_full hr] at hrun
    exact (h _).givesBack limit s t hrun
  advances limit s a t hrun := by
    rw [rule_full hr] at hrun
    exact (h _).advances limit s a t hrun
  keepsRecord limit s := by
    rw [rule_full hr]
    exact (h _).keepsRecord limit s
  blind limit s t hst := by
    rw [rule_full hr, rule_full hr, hst.cursor]
    exact (h _).blind limit s t hst

/-! ### What gives the cursor back -/

/-- The rules of a knot that read a whole type, value or block give the cursor back. The
letters of a pair tree, which begin inside a word, do not. -/
structure Knot.GivesBack (g : Knot) : Prop where
  type (withField : Bool) : Rule.GivesBack (g.type withField)
  comparable : Rule.GivesBack g.comparable
  value : Rule.GivesBack g.value
  block : Rule.GivesBack g.block

/-- The braces of a block are an attempt. -/
theorem givesBack_blockRule (g : Knot) : Rule.GivesBack (blockRule g) := by
  rw [blockRule_eq]
  exact givesBack_nested (givesBack_marking _ (givesBack_braced (step g)))

/-- The rules that nest begin with an attempt. -/
theorem Knot.givesBack_next (g : Knot) : g.next.GivesBack where
  type _ := givesBack_nested (givesBack_attempt _)
  comparable := givesBack_nested (givesBack_attempt _)
  value := givesBack_nested (givesBack_attempt _)
  block := givesBack_blockRule g

/-- However many calls are left, the rules give the cursor back. -/
theorem Knot.givesBack_tied (calls : Nat) : (Knot.tied calls).GivesBack := by
  cases calls with
  | zero =>
    exact ⟨fun _ => givesBack_exhausted, givesBack_exhausted, givesBack_exhausted,
      givesBack_exhausted⟩
  | succ calls => exact Knot.givesBack_next (Knot.tied calls)

/-- If no name is read, the macro fails where it began. -/
theorem givesBack_macroRule (g : Knot) : Rule.GivesBack (macroRule g) :=
  givesBack_recording _ (givesBack_firstOf (givesBack_fail _) _)

/-- The last alternative of a step is a block. -/
theorem givesBack_step {g : Knot} (hb : Rule.GivesBack g.block) : Rule.GivesBack (step g) :=
  givesBack_nested (givesBack_firstOf (givesBack_bind hb fun _ => .pure _) _)

/-! ### The statement -/

/-- Whatever number of calls is left, the rules are disciplined. -/
theorem Knot.disciplined_tied (calls : Nat) : (Knot.tied calls).Throughout Disciplined := by
  have hg := Knot.givesBack_tied calls
  have ha := Knot.advancing_tied calls
  have ho := handedDown_onward.related_tied 0 calls
  exact
    { note σ := (made_tied (respected_note σ) calls).disciplined (givesBack_attempt _)
        (advances_note σ)
      plainType := (made_tied respected_plainType calls).disciplined
        (givesBack_bind (hg.type false) fun _ => .pure _)
        (advances_bind (ha.type false) fun _ => onward_pure _)
      component := (made_tied respected_component calls).disciplined (hg.type true) (ha.type true)
      comparable := (made_tied respected_comparable calls).disciplined hg.comparable ha.comparable
      value := (made_tied respected_value calls).disciplined hg.value ha.value
      block := (made_tied respected_block calls).disciplined hg.block ha.block
      step := (made_tied respected_step calls).disciplined (givesBack_step hg.block)
        (advances_step ho ha.block ha.pairTree)
      instruction := (made_tied respected_instruction calls).disciplined (givesBack_attempt _)
        (advances_instruction ho)
      macroRule := (made_tied respected_macroRule calls).disciplined (givesBack_macroRule _)
        (advances_macroRule ho ha.pairTree) }

/-- What holds for any number of calls holds for the grammar that needs no count. -/
theorem Knot.disciplined_full : Knot.full.Throughout Disciplined where
  note σ := Grammar.disciplined_full (respected_note σ) fun calls => (disciplined_tied calls).note σ
  plainType := Grammar.disciplined_full respected_plainType fun calls =>
    (disciplined_tied calls).plainType
  component := Grammar.disciplined_full respected_component fun calls =>
    (disciplined_tied calls).component
  comparable := Grammar.disciplined_full respected_comparable fun calls =>
    (disciplined_tied calls).comparable
  value := Grammar.disciplined_full respected_value fun calls => (disciplined_tied calls).value
  block := Grammar.disciplined_full respected_block fun calls => (disciplined_tied calls).block
  step := Grammar.disciplined_full respected_step fun calls => (disciplined_tied calls).step
  instruction := Grammar.disciplined_full respected_instruction fun calls =>
    (disciplined_tied calls).instruction
  macroRule := Grammar.disciplined_full respected_macroRule fun calls =>
    (disciplined_tied calls).macroRule

/-- **The discipline of backtracking.** From every state and under every limit, notes,
types, components of types, comparable types, values, blocks, steps, instructions and
macros keep the level however they end, give the cursor back where they miss, pass text
where they read something, do not put the record of the furthest miss back, and do not
look at it: with any number of calls left, and in the full grammar. So do lists in braces
of any items that are made of scans and misses, and runs of such items that pass text; for
items of other kinds each property of a list asks for the same property of its items
alone. -/
theorem backtracking_disciplined :
    (∀ calls, (Knot.tied calls).Throughout Disciplined) ∧
    Knot.full.Throughout Disciplined ∧
    (∀ {α : Type} (item : Rule α), item.Made →
      Disciplined (braced item) ∧ (Advances item → Disciplined (many1 item))) ∧
    ∀ {α : Type} (item : Rule α), Lists item := by
  refine ⟨Knot.disciplined_tied, Knot.disciplined_full, fun item h => ⟨?_, fun ha => ?_⟩, lists⟩
  · exact h.braced.disciplined (givesBack_braced item) (advances_braced (h hereditary_onward))
  · exact h.many1.disciplined (givesBack_many1 item) (advances_many1 ha)

end Grammar

end Michelson
