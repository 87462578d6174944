import Michelson.Proofs.Limits
import Michelson.Proofs.Positions
import Michelson.Proofs.Termination

/-!
# The history of a run

Alternatives come and go, but the journal of a run keeps every miss, with its place
and what was expected there, and every error that was raised. The error of the run
is determined by the journal: it is the first error that was raised, and otherwise
it is made of the misses that are furthest on.

The record of the furthest miss, which a state carries along, sums up the misses
that have been noted down so far. This holds in all states, whatever alternatives
have been given up; and no rule of the grammar misses as a whole without a note.

* `Furthest.SumsUp` is what the record has to do with the misses.
* `Reply.Told` is what holds at the end of a rule, and `handedDown_tells` says that
  it does for all rules.
* `Knot.notes_tied` says that a miss is noted down, rule by rule.
* `errors_told_by_history` is the statement about whole texts.
-/

namespace Michelson

open Rule

/-! ## Misses in a history -/

/-- What an event says was expected at an offset. -/
def Event.expectedAt? (offset : Nat) : Event → Option Expectation
  | missed p what => if p.offset = offset then some what else none
  | _ => none

/-- What was expected at an offset, in the order of first occurrence and each once. -/
def expectedAt (offset : Nat) (events : List Event) : List Expectation :=
  (events.filterMap (Event.expectedAt? offset)).eraseDups

/-- An event tells of an expectation at a place if it is a miss at this place. -/
theorem Event.expectedAt?_eq_some {offset : Nat} {e : Event} {what : Expectation} :
    e.expectedAt? offset = some what ↔ ∃ p, e = .missed p what ∧ p.offset = offset := by
  cases e with
  | missed p what' =>
    rw [expectedAt?]
    constructor
    · intro h
      split at h
      · cases h
        exact ⟨p, rfl, by assumption⟩
      · cases h
    · rintro ⟨_, h, rfl⟩
      cases h
      exact if_pos rfl
  | _ => simp [expectedAt?]

/-- The expectations at a place are those of the misses there. -/
theorem mem_expectedAt {offset : Nat} {events : List Event} {what : Expectation} :
    what ∈ expectedAt offset events ↔ ∃ p, .missed p what ∈ events ∧ p.offset = offset := by
  rw [expectedAt, List.mem_eraseDups, List.mem_filterMap]
  simp only [Event.expectedAt?_eq_some]
  constructor
  · rintro ⟨_, hmem, p, rfl, hp⟩
    exact ⟨p, hmem, hp⟩
  · rintro ⟨p, hmem, hp⟩
    exact ⟨_, hmem, p, rfl, hp⟩

/-- Where nothing was expected. -/
theorem expectedAt_eq_nil {offset : Nat} {events : List Event}
    (h : ∀ p what, .missed p what ∈ events → p.offset ≠ offset) :
    expectedAt offset events = [] := by
  refine List.eq_nil_iff_forall_not_mem.mpr fun what hwhat => ?_
  obtain ⟨p, hmem, hp⟩ := mem_expectedAt.mp hwhat
  exact h p what hmem hp

/-- What has been there before is not listed again. -/
theorem eraseDups_concat (l : List Expectation) (what : Expectation) :
    (l ++ [what]).eraseDups =
      if what ∈ l.eraseDups then l.eraseDups else l.eraseDups ++ [what] := by
  rw [List.eraseDups_append]
  by_cases h : what ∈ l
  · have hnone : [what].removeAll l = [] := by simp [List.removeAll, h]
    rw [hnone, if_pos (List.mem_eraseDups.mpr h), List.eraseDups_nil, List.append_nil]
  · have hone : [what].removeAll l = [what] := by simp [List.removeAll, h]
    rw [hone, if_neg (List.mem_eraseDups.not.mpr h), List.eraseDups_cons, List.filter_nil,
      List.eraseDups_nil]

/-- One more miss adds its expectation to those of its place. -/
theorem expectedAt_concat_missed (offset : Nat) (events : List Event) (p : Position)
    (what : Expectation) : expectedAt offset (events ++ [.missed p what]) =
      if p.offset = offset then
        if what ∈ expectedAt offset events then expectedAt offset events
        else expectedAt offset events ++ [what]
      else expectedAt offset events := by
  rw [expectedAt, List.filterMap_append]
  split
  case isTrue hp =>
    have hone : [Event.missed p what].filterMap (Event.expectedAt? offset) = [what] := by
      simp [Event.expectedAt?, hp]
    rw [hone]
    exact eraseDups_concat _ what
  case isFalse hp =>
    have hnone : [Event.missed p what].filterMap (Event.expectedAt? offset) = [] := by
      simp [Event.expectedAt?, hp]
    rw [hnone, List.append_nil]
    rfl

/-- Other events add nothing. -/
theorem expectedAt_concat_other (offset : Nat) (events : List Event) {e : Event}
    (he : ∀ p what, e ≠ .missed p what) :
    expectedAt offset (events ++ [e]) = expectedAt offset events := by
  have hnone : e.expectedAt? offset = none := by
    refine Option.eq_none_iff_forall_ne_some.mpr fun what hwhat => ?_
    obtain ⟨p, rfl, -⟩ := Event.expectedAt?_eq_some.mp hwhat
    exact he p what rfl
  rw [expectedAt, List.filterMap_append, List.filterMap_cons_none hnone, List.filterMap_nil,
    List.append_nil]
  rfl

/-! ## The record of the furthest miss -/

/-- The record sums up the misses among some events. -/
structure Furthest.SumsUp (f : Furthest) (events : List Event) : Prop where
  noted : ∃ what, .missed f.cursor.position what ∈ events
  furthest : ∀ p what, .missed p what ∈ events → p.offset ≤ f.cursor.position.offset
  expected : f.expected = expectedAt f.cursor.position.offset events

/-- The record sums up the misses, and there is none as long as there was no miss. -/
def SumsUp (events : List Event) : Option Furthest → Prop
  | some f => f.SumsUp events
  | none => ∀ p what, .missed p what ∉ events

/-- Other events are not summed up. -/
theorem SumsUp.concat_other {events : List Event} {e : Event} {f? : Option Furthest}
    (h : SumsUp events f?) (he : ∀ p what, e ≠ .missed p what) : SumsUp (events ++ [e]) f? := by
  have hmem {p : Position} {what : Expectation} :
      .missed p what ∈ events ++ [e] ↔ .missed p what ∈ events := by
    simp [(he p what).symm]
  cases f? with
  | none => exact fun p what => hmem.not.mpr (h p what)
  | some f =>
    obtain ⟨⟨what, hnoted⟩, hfurthest, hexpected⟩ := h
    refine ⟨⟨what, hmem.mpr hnoted⟩, fun p what hp => hfurthest p what (hmem.mp hp), ?_⟩
    rw [expectedAt_concat_other _ _ he]
    exact hexpected

/-- A record for a place beyond all earlier misses. -/
theorem Furthest.sumsUp_first {events : List Event} {c : Cursor} (what : Expectation)
    (h : ∀ p what, .missed p what ∈ events → p.offset < c.position.offset) :
    Furthest.SumsUp ⟨c, [what]⟩ (events ++ [.missed c.position what]) := by
  have hnone := expectedAt_eq_nil fun p what hp => (h p what hp).ne
  refine ⟨⟨what, by simp⟩, fun p what' hp => ?_, ?_⟩
  · rcases List.mem_append.mp hp with hp | hp
    · exact (h p what' hp).le
    · cases List.mem_singleton.mp hp
      exact le_rfl
  · rw [expectedAt_concat_missed, if_pos rfl, hnone, if_neg List.not_mem_nil, List.nil_append]

/-- **One more miss.** The record of the next state sums up the misses with the new one. -/
theorem State.sumsUp_furthestAfter {s : State} {events : List Event}
    (h : SumsUp events s.furthest) (what : Expectation) :
    (s.furthestAfter what).SumsUp (events ++ [.missed s.cursor.position what]) := by
  rw [furthestAfter]
  cases hf : s.furthest with
  | none =>
    rw [hf] at h
    exact Furthest.sumsUp_first what fun p what hp => absurd hp (h p what)
  | some f =>
    rw [hf] at h
    obtain ⟨⟨noted, hnoted⟩, hfurthest, hexpected⟩ := h
    dsimp only
    split
    case isTrue hbefore =>
      -- the miss is no news
      refine ⟨⟨noted, List.mem_append_left _ hnoted⟩, fun p what' hp => ?_, ?_⟩
      · rcases List.mem_append.mp hp with hp | hp
        · exact hfurthest p what' hp
        · cases List.mem_singleton.mp hp
          exact hbefore.le
      · rw [expectedAt_concat_missed, if_neg hbefore.ne]
        exact hexpected
    case isFalse hbefore =>
      split
      case isTrue hsame =>
        -- as far as the record goes, so what was expected here is noted beside the rest
        have hfurthest' (p : Position) (what' : Expectation)
            (hp : .missed p what' ∈ events ++ [.missed s.cursor.position what]) :
            p.offset ≤ f.cursor.position.offset := by
          rcases List.mem_append.mp hp with hp | hp
          · exact hfurthest p what' hp
          · cases List.mem_singleton.mp hp
            exact hsame.ge
        have hnext :=
          expectedAt_concat_missed f.cursor.position.offset events s.cursor.position what
        rw [if_pos hsame.symm, ← hexpected] at hnext
        split
        case isTrue hmem =>
          rw [if_pos hmem] at hnext
          exact ⟨⟨noted, List.mem_append_left _ hnoted⟩, hfurthest', hnext.symm⟩
        case isFalse hmem =>
          rw [if_neg hmem] at hnext
          exact ⟨⟨noted, List.mem_append_left _ hnoted⟩, hfurthest', hnext.symm⟩
      case isFalse hsame =>
        -- past the record, which begins anew
        refine Furthest.sumsUp_first what fun p what' hp => ?_
        have := hfurthest p what' hp
        omega

/-! ## States and replies that tell their history -/

namespace State

/-- The record of the state sums up its journal, in which all expectations are those of
the grammar. -/
structure Recorded (s : State) : Prop where
  record : SumsUp s.journal.reverse s.furthest
  stated : ∀ p what, .missed p what ∈ s.journal → what.isOfGrammar

/-- No error has been raised. -/
def Calm (s : State) : Prop := ∀ e, .raised e ∉ s.journal

variable {s : State}

/-- In the beginning nothing has been missed, and there is no record. -/
theorem recorded_initial (text : List Char) : (State.initial text).Recorded :=
  ⟨(fun _ _ h => nomatch h), fun _ _ h => nomatch h⟩

/-- In the beginning no error has been raised. -/
theorem calm_initial (text : List Char) : (State.initial text).Calm := fun _ h => nomatch h

/-- An event that is no miss leaves the record as it is. -/
theorem Recorded.log (h : s.Recorded) {e : Event} (he : ∀ p what, e ≠ .missed p what) :
    (s.log e).Recorded := by
  constructor
  · have hrecord := h.record.concat_other he
    rwa [← List.reverse_cons] at hrecord
  · intro p what hmem
    rcases List.mem_cons.mp hmem with rfl | hmem
    · exact absurd rfl (he p what)
    · exact h.stated p what hmem

/-- An expectation is noted down and recorded at once. -/
theorem Recorded.expect (h : s.Recorded) {what : Expectation} (hw : what.isOfGrammar) :
    (s.expect what).Recorded := by
  constructor
  · have hrecord := sumsUp_furthestAfter h.record what
    rwa [← List.reverse_cons] at hrecord
  · intro p what' hmem
    rcases List.mem_cons.mp hmem with heq | hmem
    · cases heq
      exact hw
    · exact h.stated p what' hmem

theorem Calm.log (h : s.Calm) {e : Event} (he : ∀ err, e ≠ .raised err) : (s.log e).Calm := by
  intro err hmem
  rcases List.mem_cons.mp hmem with heq | hmem
  · exact he err heq.symm
  · exact h err hmem

end State

/-- The reply has a record of its history, in which an error is raised by the last event
or not at all; it is the error with which the rule halts. -/
structure Reply.Told {α : Type} (reply : Reply α) : Prop where
  state : reply.state.Recorded
  calm : (∀ e, reply.verdict ≠ .halt (.error e)) → reply.state.Calm
  raised : ∀ e, reply.verdict = .halt (.error e) →
    ∃ earlier, reply.state.journal = .raised e :: earlier ∧ ∀ e', .raised e' ∉ earlier

namespace Reply.Told

variable {α β : Type} {t : State}

/-- A reply that raises nothing tells its history if its state does. -/
theorem of_calm {reply : Reply α} (hs : reply.state.Recorded) (hcalm : reply.state.Calm)
    (hne : ∀ e, reply.verdict ≠ .halt (.error e)) : reply.Told :=
  ⟨hs, fun _ => hcalm, fun e he => absurd he (hne e)⟩

theorem of_ok {a : α} (h : Told ⟨.ok a, t⟩) : t.Recorded ∧ t.Calm :=
  ⟨h.state, h.calm fun _ he => nomatch he⟩

theorem of_miss (h : Told (⟨.miss, t⟩ : Reply α)) : t.Recorded ∧ t.Calm :=
  ⟨h.state, h.calm fun _ he => nomatch he⟩

theorem ok (a : α) (h : t.Recorded ∧ t.Calm) : Told ⟨.ok a, t⟩ :=
  of_calm h.1 h.2 fun _ he => nomatch he

theorem miss (h : t.Recorded ∧ t.Calm) : Told (⟨.miss, t⟩ : Reply α) :=
  of_calm h.1 h.2 fun _ he => nomatch he

/-- What halts in a rule halts the rules around it. -/
theorem halt {stop : Stop} (h : Told (⟨.halt stop, t⟩ : Reply α)) :
    Told (⟨.halt stop, t⟩ : Reply β) := by
  refine ⟨h.state, fun hne => h.calm fun e he => ?_, fun e he => h.raised e ?_⟩
  · cases he
    exact hne e rfl
  · cases he
    rfl

end Reply.Told

/-! ## Rules tell their history -/

namespace Rule

variable {α β : Type}

/-- The rule goes on with a history in which no error was raised. -/
def Tells ⦃α : Type⦄ (r : Rule α) : Prop :=
  ∀ limit s, s.Recorded → s.Calm → (r limit s).Told

theorem tells_pure (a : α) : Tells (pure a : Rule α) := fun _ _ hs hcalm => .ok a ⟨hs, hcalm⟩

/-- Behind a value no error has been raised, so the next rule may go on. -/
theorem tells_bind {r : Rule α} {k : α → Rule β} (h : Tells r)
    (hk : ∀ a, r.Returns a → Tells (k a)) : Tells (r >>= k) := by
  intro limit s hs hcalm
  have hr := h limit s hs hcalm
  rcases hrun : r limit s with ⟨a | _ | stop, t⟩ <;> rw [hrun] at hr
  · obtain ⟨ht, hcalm'⟩ := hr.of_ok
    rw [bind_ok hrun]
    exact hk a ⟨limit, s, t, hrun⟩ limit t ht hcalm'
  · rw [bind_miss hrun]
    exact .miss hr.of_miss
  · rw [bind_halt hrun]
    exact hr.halt

/-- The cursor that is set back is no part of the history. -/
theorem tells_optional {r : Rule α} (h : Tells r) : Tells (optional r) := by
  intro limit s hs hcalm
  have hr := h limit s hs hcalm
  rw [optional]
  rcases hrun : r limit s with ⟨a | _ | stop, t⟩ <;> rw [hrun] at hr
  · exact .ok _ hr.of_ok
  · obtain ⟨ht, hcalm'⟩ := hr.of_miss
    exact .ok _ ⟨⟨ht.record, ht.stated⟩, hcalm'⟩
  · exact hr.halt

theorem tells_attempt {r : Rule α} (h : Tells r) : Tells (attempt r) := by
  intro limit s hs hcalm
  have hr := h limit s hs hcalm
  rw [attempt]
  rcases hrun : r limit s with ⟨a | _ | stop, t⟩ <;> rw [hrun] at hr
  · exact hr
  · obtain ⟨ht, hcalm'⟩ := hr.of_miss
    exact .miss ⟨⟨ht.record, ht.stated⟩, hcalm'⟩
  · exact hr

/-- An error is raised behind a history without one. -/
theorem tells_raise (e : Error) : Tells (raise (α := α) e) := by
  intro limit s hs hcalm
  refine ⟨hs.log (fun _ _ h => nomatch h), fun hne => absurd rfl (hne e), fun e' he => ?_⟩
  cases he
  exact ⟨s.journal, rfl, hcalm⟩

/-- An error about the depth is noted down when it is raised. -/
theorem tells_nested {r : Rule α} (h : Tells r) : Tells (nested r) := by
  intro limit s hs hcalm
  have hdeep : (deeper r limit s).Told := by
    have hr := h limit { s with depth := s.depth + 1 } ⟨hs.record, hs.stated⟩ hcalm
    exact ⟨⟨hr.state.record, hr.state.stated⟩, hr.calm, hr.raised⟩
  cases limit with
  | none => exact hdeep
  | some l =>
    rw [nested_some]
    split
    · exact tells_raise _ (some l) s hs hcalm
    · exact hdeep

/-- The miss is in the history, and its expectation is one of the grammar. -/
theorem tells_fail {what : Expectation} (hw : what.isOfGrammar) : Tells (fail (α := α) what) :=
  fun _ _ hs hcalm => .miss ⟨hs.expect hw, hcalm.log fun _ h => nomatch h⟩

theorem tells_moveTo (c : Cursor) : Tells (moveTo c) :=
  fun _ _ hs hcalm => .ok _ ⟨⟨hs.record, hs.stated⟩, hcalm⟩

/-- An error of a scan is noted down when it is raised. -/
theorem tells_scanning (look : Cursor → Except Error (α × Cursor)) : Tells (scanning look) := by
  intro limit s hs hcalm
  rw [scanning]
  cases look s.cursor with
  | ok found => exact .ok _ ⟨⟨hs.record, hs.stated⟩, hcalm⟩
  | error e => exact tells_raise (α := α) e limit s hs hcalm

theorem tells_mark {e : Event} (he : e.isMark) : Tells (log e) := by
  intro limit s hs hcalm
  refine .ok _ ⟨hs.log ?_, hcalm.log ?_⟩
  · rintro p what rfl
    cases he
  · rintro err rfl
    cases he

/-- **All rules tell their history.** -/
theorem handedDown_tells : HandedDown Tells where
  pure := tells_pure
  bind := tells_bind
  miss _ _ hs hcalm := .miss ⟨hs, hcalm⟩
  fail := tells_fail
  exhausted _ _ hs hcalm := .of_calm hs hcalm fun _ he => nomatch he
  optional := tells_optional
  attempt := tells_attempt
  nested := tells_nested
  advancing h := advancing_of_moveTo (fun h hk => tells_bind h fun a _ => hk a)
    (fun _ => tells_scanning _) tells_moveTo tells_pure (tells_optional h)
  mark := tells_mark
  scanning _ := tells_scanning _
  returned _ _ hw := returned_of_moveTo (fun h hk => tells_bind h fun a _ => hk a)
    (fun _ => tells_scanning _) tells_moveTo (tells_fail hw)

end Rule

/-! ## No miss without a note -/

namespace Rule

variable {α β : Type}

/-- A miss of the rule has been noted down. -/
def NotesMisses ⦃α : Type⦄ (r : Rule α) : Prop :=
  ∀ limit s, (r limit s).verdict = .miss → ∃ p what, .missed p what ∈ (r limit s).state.journal

/-- A sequence misses where one of its rules does, and that one has noted it down. -/
theorem notes_bind {r : Rule α} {k : α → Rule β} (h : NotesMisses r)
    (hk : ∀ a, r.Returns a → NotesMisses (k a)) : NotesMisses (r >>= k) := by
  intro limit s hmiss
  rcases hrun : r limit s with ⟨a | _ | stop, t⟩
  · rw [bind_ok hrun] at hmiss ⊢
    exact hk a ⟨limit, s, t, hrun⟩ limit t hmiss
  · have hnoted := h limit s
    rw [hrun] at hnoted
    rw [bind_miss hrun]
    exact hnoted rfl
  · rw [bind_halt hrun] at hmiss
    cases hmiss

/-- An optional rule does not miss, whatever the rule is. -/
theorem notes_optional (r : Rule α) : NotesMisses (optional r) := by
  intro limit s hmiss
  rw [optional] at hmiss
  rcases hrun : r limit s with ⟨_ | _ | _, t⟩ <;> rw [hrun] at hmiss <;> cases hmiss

/-- An attempt takes back the cursor, and not what was noted down. -/
theorem notes_attempt {r : Rule α} (h : NotesMisses r) : NotesMisses (attempt r) := by
  intro limit s hmiss
  have hnoted := h limit s
  rw [attempt] at hmiss ⊢
  rcases hrun : r limit s with ⟨_ | _ | _, t⟩ <;> rw [hrun] at hmiss hnoted
  · cases hmiss
  · exact hnoted rfl
  · cases hmiss

/-- At the limit an error is raised, which is no miss. -/
theorem notes_nested {r : Rule α} (h : NotesMisses r) : NotesMisses (nested r) := by
  intro limit s hmiss
  have hdeep : (deeper r limit s).verdict = .miss →
      ∃ p what, .missed p what ∈ (deeper r limit s).state.journal :=
    h limit { s with depth := s.depth + 1 }
  cases limit with
  | none => exact hdeep hmiss
  | some l =>
    rw [nested_some] at hmiss ⊢
    split at hmiss
    · cases hmiss
    · rename_i hroom
      rw [if_neg hroom]
      exact hdeep hmiss

theorem notes_fail (what : Expectation) : NotesMisses (fail (α := α) what) :=
  fun _ _ _ => ⟨_, what, List.mem_cons_self⟩

theorem notes_scanning (look : Cursor → Except Error (α × Cursor)) :
    NotesMisses (scanning look) := by
  intro limit s hmiss
  rw [scanning] at hmiss
  cases hlook : look s.cursor <;> rw [hlook] at hmiss <;> cases hmiss

theorem notes_moveTo (c : Cursor) : NotesMisses (moveTo c) := fun _ _ h => nomatch h

theorem notes_pure (a : α) : NotesMisses (pure a : Rule α) := fun _ _ h => nomatch h

/-- Every token that is refused says what was expected. -/
theorem handed_notesMisses : Handed NotesMisses where
  pure := notes_pure
  bind := notes_bind
  fail _ := notes_fail _
  exhausted _ _ h := nomatch h
  optional _ := notes_optional _
  attempt := notes_attempt
  advancing _ := advancing_of_moveTo (fun h hk => notes_bind h fun a _ => hk a)
    (fun _ => notes_scanning _) notes_moveTo notes_pure (notes_optional _)
  mark _ _ _ h := nomatch h
  scanning _ := notes_scanning _
  returned _ _ _ := returned_of_moveTo (fun h hk => notes_bind h fun a _ => hk a)
    (fun _ => notes_scanning _) notes_moveTo (notes_fail _)

/-- Of some alternatives the last one decides. -/
theorem notes_firstOf {last : Rule α} (h : NotesMisses last) (rs : List (Rule α)) :
    NotesMisses (firstOf last rs) := by
  induction rs with
  | nil => exact h
  | cons r rs ih =>
    refine notes_bind (notes_optional r) fun a? _ => ?_
    cases a? with
    | some a => exact notes_pure a
    | none => exact ih

end Rule

namespace Grammar

/-- The rules of the knot note down their misses. -/
structure Knot.NotesMisses (g : Knot) : Prop where
  type (withField : Bool) : Rule.NotesMisses (g.type withField)
  comparable : Rule.NotesMisses g.comparable
  value : Rule.NotesMisses g.value
  block : Rule.NotesMisses g.block

namespace Knot.NotesMisses

variable {g : Knot} (h : g.NotesMisses)

include h

theorem plainType : Rule.NotesMisses g.plainType :=
  handed_notesMisses.next (h.type false) fun _ => notes_pure _

/-- Whichever parts a type has, one of them is missed where the type is. -/
theorem components (note : Note .type) (head : Ty.Head) :
    Rule.NotesMisses (components g note head) := by
  have H := handed_notesMisses
  cases head with
  | atom => exact H.pure _
  | option => exact H.next (h.type true) fun _ => H.pure _
  | wrapped => exact H.next h.plainType fun _ => H.pure _
  | set => exact H.next h.comparable fun _ => H.pure _
  | joint => exact H.next (h.type true) fun _ => H.next (h.type true) fun _ => H.pure _
  | lambda => exact H.next h.plainType fun _ => H.next h.plainType fun _ => H.pure _
  | table => exact H.next h.comparable fun _ => H.next h.plainType fun _ => H.pure _

/-- A type misses at its word, or in its parts. -/
theorem typeRule (withField : Bool) : Rule.NotesMisses (typeRule g withField) := by
  have H := handed_notesMisses
  rw [typeRule_eq]
  refine notes_nested (H.attempt (H.unlessOpen (H.parenthesized (h.type withField)) ?_))
  refine H.next (H.headWord _ rfl) fun head => H.next (H.nodeNotes withField) fun notes => ?_
  exact H.next (h.components _ head) fun _ => H.pure _

theorem comparableRule : Rule.NotesMisses (comparableRule g) := by
  have H := handed_notesMisses
  rw [comparableRule_eq]
  refine notes_nested (H.attempt (H.unlessOpen (H.parenthesized h.comparable) ?_))
  exact H.next (H.headWord _ rfl) fun _ => H.next (H.noteSlot _) fun _ => H.pure _

/-- The last reading of a value is code. -/
theorem valueRule : Rule.NotesMisses (valueRule g) := by
  have H := handed_notesMisses
  refine notes_nested (H.attempt (H.unlessOpen (H.parenthesized h.value) ?_))
  exact notes_firstOf (H.next h.block fun _ => H.pure _) _

/-- The last reading of a step is a block. -/
theorem step : Rule.NotesMisses (step g) :=
  notes_nested (notes_firstOf (handed_notesMisses.next h.block fun _ => notes_pure _) _)

/-- A block misses at its brace, or in its steps. -/
theorem blockRule : Rule.NotesMisses (blockRule g) := by
  have H := handed_notesMisses
  rw [blockRule_eq]
  exact notes_nested (H.next (H.marking fun _ => rfl) fun _ => H.braced h.step)

/-- The rules of the next knot note their misses if those of this one do. -/
theorem next : g.next.NotesMisses where
  type := h.typeRule
  comparable := h.comparableRule
  value := h.valueRule
  block := h.blockRule

/-- A section misses at its keyword, in its fragment or at its semicolon. -/
theorem typeSection (part : Part) : Rule.NotesMisses (typeSection g part) := by
  have H := handed_notesMisses
  rw [typeSection_eq]
  refine H.next (H.keyword (isOfGrammar_keyword part)) fun _ => ?_
  refine H.next (H.marking fun _ => rfl) fun _ => H.next h.plainType fun _ => ?_
  exact H.next (H.symbol rfl) fun _ => H.pure _

theorem codeSection : Rule.NotesMisses (codeSection g) := by
  have H := handed_notesMisses
  rw [codeSection_eq]
  refine H.next (H.keyword (isOfGrammar_keyword .code)) fun _ => ?_
  refine H.next (H.marking fun _ => rfl) fun _ => H.next h.block fun _ => ?_
  exact H.next (H.optional (H.symbol rfl)) fun _ => H.pure _

/-- What misses is a section that is not there. -/
theorem contractRule : Rule.NotesMisses (contractRule g) := by
  have H := handed_notesMisses
  have hrequire {α : Type} (part : Part) (a? : Option α) :
      Rule.NotesMisses (require part a?) := by
    cases a? with
    | some a => exact H.pure a
    | none => exact notes_fail _
  refine H.next (H.group ?_ _) fun sections => ?_
  · simp [H.slot, h.typeSection, h.codeSection]
  · exact H.next (hrequire _ _) fun _ => H.next (hrequire _ _) fun _ =>
      H.next (hrequire _ _) fun _ => H.pure _

end Knot.NotesMisses

/-- **No miss without a note.** -/
theorem Knot.notes_tied (calls : Nat) : (Knot.tied calls).NotesMisses := by
  induction calls with
  | zero =>
    have hnone {α : Type} : Rule.NotesMisses (Rule.exhausted (α := α)) :=
      handed_notesMisses.exhausted
    exact ⟨fun _ => hnone, hnone, hnone, hnone⟩
  | succ calls ih => exact ih.next

end Grammar

/-! ## The error of a run -/

/-- The error for a furthest miss: where it was, which character comes next there, and what
was expected. -/
inductive Error.ForMiss (p : Position) (next : Option Char) (expected : List Expectation) :
    Error → Prop where
  | note : .noteBody ∈ expected → ForMiss p next expected (.note p expected)
  | stray (c : Char) : .noteBody ∉ expected → next = some c → canStartToken c = false →
    ForMiss p next expected (.lexical p (.strayCharacter c))
  | grammar : .noteBody ∉ expected → (∀ c, next = some c → canStartToken c = true) →
    ForMiss p next expected (.grammar p expected)

/-- The error is told by what is expected and by the next character. -/
theorem Furthest.error_forMiss (f : Furthest) :
    Error.ForMiss f.cursor.position f.cursor.rest.head? f.expected f.error := by
  rw [error]
  split
  case isTrue hnote => exact .note hnote
  case isFalse hnote =>
    split
    · rename_i hend
      refine .grammar hnote fun c hc => ?_
      rw [← Cursor.peek?, hend] at hc
      cases hc
    · rename_i c hc
      split
      case isTrue hstart =>
        refine .grammar hnote fun c' hc' => ?_
        obtain rfl := Option.some.inj (hc.symm.trans hc')
        exact hstart
      case isFalse hstart => exact .stray c hnote hc (Bool.eq_false_iff.mpr hstart)

theorem Error.ForMiss.expected {p : Position} {next : Option Char}
    {expected told : List Expectation} {e : Error} (h : e.ForMiss p next expected) (htold : e.expected? = some told) :
    told = expected := by
  cases h <;> cases htold <;> rfl

/-- The furthest miss of a history: the place at which it was, with the text behind it. -/
structure FurthestMiss (text : String) (events : List Event) (p : Position) (after : List Char) :
    Prop where
  place : ∃ before, p.Parts before after text
  noted : ∃ what, .missed p what ∈ events
  furthest : ∀ q what, .missed q what ∈ events → q.offset ≤ p.offset

/-- The result of a run is what its history says. -/
structure Reply.FromHistory {α : Type} (text : String) (reply : Reply α) : Prop where
  /-- An error that is raised is the result. It is the only one, and nothing follows it. -/
  raised : ∀ e, .raised e ∈ reply.events → reply.result = .error e ∧
    ∃ earlier, reply.events = earlier ++ [.raised e] ∧ ∀ e', .raised e' ∉ earlier
  /-- If none is raised then an error has the place of the furthest miss, and tells what
  was expected there. -/
  missed : ∀ e, reply.result = .error e → (∀ e', .raised e' ∉ reply.events) →
    ∃ p after, FurthestMiss text reply.events p after ∧
      e.ForMiss p after.head? (expectedAt p.offset reply.events)
  /-- An error tells of something that was expected, in words of the grammar. -/
  stated : ∀ e expected, reply.result = .error e → e.expected? = some expected →
    expected ≠ [] ∧ .stated "input" ∉ expected ∧ ∀ what ∈ expected, what.isOfGrammar

namespace Reply.Told

variable {α : Type} {text : String} {reply : Reply α}

/-- A run that misses has a record of the furthest miss. -/
theorem exists_furthest (h : reply.Told)
    (hnoted : ∃ p what, .missed p what ∈ reply.state.journal) :
    ∃ f, reply.state.furthest = some f ∧ f.SumsUp reply.events := by
  have hrecord := h.state.record
  cases hf : reply.state.furthest with
  | none =>
    obtain ⟨p, what, hmem⟩ := hnoted
    rw [hf] at hrecord
    exact absurd (List.mem_reverse.mpr hmem) (hrecord p what)
  | some f =>
    rw [hf] at hrecord
    exact ⟨f, rfl, hrecord⟩

/-- What is listed has been expected at some place. -/
theorem isOfGrammar_expectedAt (h : reply.Told) {offset : Nat} {what : Expectation}
    (hmem : what ∈ expectedAt offset reply.events) : what.isOfGrammar := by
  obtain ⟨p, hp, -⟩ := mem_expectedAt.mp hmem
  exact h.state.stated p what (List.mem_reverse.mp hp)

/-- A history without a raised error, in which the run has missed. -/
theorem fromHistory_of_miss (h : reply.Told) (hplaced : reply.state.Placed text)
    (hmiss : reply.verdict = .miss) (hnoted : ∃ p what, .missed p what ∈ reply.state.journal) :
    reply.FromHistory text := by
  have hcalm := h.calm fun e he => by
    rw [hmiss] at he
    cases he
  obtain ⟨f, hf, hsum⟩ := h.exists_furthest hnoted
  have hresult : reply.result = .error f.error := by rw [result, hmiss, State.error, hf]
  obtain ⟨what, hwhat⟩ := hsum.noted
  constructor
  case raised => exact fun e he => absurd (List.mem_reverse.mp he) (hcalm e)
  case missed =>
    intro e he _
    obtain rfl := Except.error.inj (hresult.symm.trans he)
    refine ⟨f.cursor.position, f.cursor.rest, ?_, ?_⟩
    · exact ⟨(hplaced.furthest f hf).parts, ⟨what, hwhat⟩, hsum.furthest⟩
    · rw [← hsum.expected]
      exact f.error_forMiss
  case stated =>
    intro e told he htold
    obtain rfl := Except.error.inj (hresult.symm.trans he)
    obtain rfl := f.error_forMiss.expected htold
    rw [hsum.expected]
    refine ⟨?_, fun hmem => ?_, fun what' hmem => h.isOfGrammar_expectedAt hmem⟩
    · exact List.ne_nil_of_mem (mem_expectedAt.mpr ⟨_, hwhat, rfl⟩)
    · cases h.isOfGrammar_expectedAt hmem

/-- A history that ends with an error that is raised. -/
theorem fromHistory_of_raised (h : reply.Told) {e : Error}
    (he : reply.verdict = .halt (.error e)) (hexpected : e.expected? = none) :
    reply.FromHistory text := by
  have hresult : reply.result = .error e := by rw [result, he]
  obtain ⟨earlier, hjournal, hcalm⟩ := h.raised e he
  have hevents : reply.events = earlier.reverse ++ [.raised e] := by
    rw [events, hjournal, List.reverse_cons]
  have hcalm' : ∀ e', .raised e' ∉ earlier.reverse := by simpa using hcalm
  constructor
  case raised =>
    intro e' he'
    rw [hevents] at he'
    rcases List.mem_append.mp he' with he' | he'
    · exact absurd he' (hcalm' e')
    · cases List.mem_singleton.mp he'
      exact ⟨hresult, earlier.reverse, hevents, hcalm'⟩
  case missed =>
    intro _ _ hnone
    refine absurd ?_ (hnone e)
    rw [hevents]
    simp
  case stated =>
    intro e' told he' htold
    obtain rfl := Except.error.inj (hresult.symm.trans he')
    rw [hexpected] at htold
    cases htold

/-- A history of a run that has read something. -/
theorem fromHistory_of_ok (h : reply.Told) {a : α} (hok : reply.verdict = .ok a) :
    reply.FromHistory text := by
  have hcalm := h.calm fun e he => by
    rw [hok] at he
    cases he
  have hresult : reply.result = .ok a := by rw [result, hok]
  have hne (e : Error) : reply.result ≠ .error e := by
    rw [hresult]
    rintro ⟨⟩
  exact
    { raised e he := absurd (List.mem_reverse.mp he) (hcalm e)
      missed e he := absurd he (hne e)
      stated e _ he := absurd he (hne e) }

end Reply.Told

namespace Grammar

/-- Errors that are raised list no expectations. -/
theorem hereditary_raises_unlisted : Hereditary (Raises fun _ e => e.expected? = none) := by
  refine hereditary_raises ?_ fun _ _ => rfl
  rintro _ _ e ⟨_, -, ⟨fault, rfl⟩ | ⟨fault, rfl⟩⟩ <;> rfl

/-- A run from the beginning tells its history. -/
theorem told_run {α : Type} {rule : Knot → Rule α} (hr : Respected rule) (limit : Option Nat)
    (text : String) : (run rule limit text.toList).Told :=
  handedDown_tells.whole (handedDown_tells.tied hr (callsFor text.toList)) limit _
    (State.recorded_initial _) (State.calm_initial _)

/-- The error of a run is the first that was raised, or is made of the misses that were furthest. -/
theorem fromHistory_run {α : Type} {rule : Knot → Rule α} (hr : Respected rule)
    (hnotes : ∀ calls, (rule (Knot.tied calls)).NotesMisses) (limit : Option Nat) (text : String) :
    (run rule limit text.toList).FromHistory text := by
  have htold := told_run hr limit text
  have hends := (finishes_of_respected hr).ends limit text.toList
  rcases hv : (run rule limit text.toList).verdict with a | _ | (e | _)
  · exact htold.fromHistory_of_ok hv
  · have hplaced := (reachable_run hr limit text).placed
    exact htold.fromHistory_of_miss hplaced hv
      (handed_notesMisses.whole (hnotes (callsFor text.toList)) limit _ hv)
  · have hraises := hereditary_raises_unlisted.whole
      (hereditary_raises_unlisted.tied hr (callsFor text.toList))
    exact htold.fromHistory_of_raised hv (hraises limit _ e hv)
  · exact absurd hv hends

end Grammar

/-- **The reported error is determined by the history of failures.** Whatever alternatives
were tried and given up while a contract, a type, a value or a block of code was read, and
under whatever limit: an error that was raised is the result, it is the first one, and
nothing happened after it; otherwise an error is that of the furthest misses. -/
theorem errors_told_by_history (text : String) (limit : Option Nat) :
    (Contract.read limit text).FromHistory text ∧
    (Grammar.run Grammar.Knot.plainType limit text.toList).FromHistory text ∧
    (Grammar.run Grammar.Knot.value limit text.toList).FromHistory text ∧
    (Grammar.run Grammar.Knot.block limit text.toList).FromHistory text := by
  have hnotes := Grammar.Knot.notes_tied
  refine ⟨?_, ?_, ?_, ?_⟩
  · exact Grammar.fromHistory_run Grammar.respected_contractRule
      (fun calls => (hnotes calls).contractRule) limit text
  · exact Grammar.fromHistory_run Grammar.respected_plainType
      (fun calls => (hnotes calls).plainType) limit text
  · exact Grammar.fromHistory_run Grammar.respected_value
      (fun calls => (hnotes calls).value) limit text
  · exact Grammar.fromHistory_run Grammar.respected_block
      (fun calls => (hnotes calls).block) limit text

end Michelson
