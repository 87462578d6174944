import Michelson.Proofs.Hereditary

/-!
# What a run does to the state

However a rule ends, some things about the state that it leaves can be told from the
state in which it began: the level of nesting is the same, and the record of the
furthest miss has not gone back. Such a statement is a relation between states. It holds
of all rules if every way to change a state respects it: to move the cursor, to note
something down, to record a miss, and to enter a level and leave it.

* `Frame` lists what is asked of the relation, and `Frame.hereditary` says that all
  rules respect it then.
* `handedDown_keepsLevel` and `handedDown_keepsRecord` are the conclusions for the level
  and for the record.
-/

namespace Michelson

open Rule

/-- A relation between the states before and after a run that is respected by every way
to change a state. -/
structure Frame (R : State → State → Prop) : Prop where
  refl (s : State) : R s s
  trans {s t u : State} : R s t → R t u → R s u
  move (s : State) (c : Cursor) : R s { s with cursor := c }
  log (s : State) (e : Event) : R s (s.log e)
  expect (s : State) (what : Expectation) : R s (s.expect what)
  /-- a level is entered, and left again -/
  level {s t : State} :
    R { s with depth := s.depth + 1 } t → R s { t with depth := t.depth - 1 }

namespace Rule

variable {α β : Type}

/-- However the rule ends, the state that it leaves is related to the one in which it
began. -/
def Leads (R : State → State → Prop) ⦃α : Type⦄ (r : Rule α) : Prop :=
  ∀ limit s, R s (r limit s).state

/-- An attempt leaves the state that the optional rule leaves. -/
theorem attempt_state (r : Rule α) (limit : Option Nat) (s : State) :
    (attempt r limit s).state = (optional r limit s).state := by
  rw [attempt, optional]
  rcases r limit s with ⟨_ | _ | _, t⟩ <;> rfl

/-- A nested rule is stopped at the limit, or is run one level deeper. -/
theorem nested_cases (r : Rule α) (limit : Option Nat) (s : State) :
    nested r limit s = deeper r limit s ∨
      ∃ e, nested r limit s = ⟨.halt (.error e), s.log (.raised e)⟩ := by
  cases limit with
  | none => exact .inl rfl
  | some l =>
    rw [nested_some]
    split
    · exact .inr ⟨_, rfl⟩
    · exact .inl rfl

end Rule

namespace Frame

variable {R : State → State → Prop} (F : Frame R) {α β : Type}

include F

/-- A rule that does nothing leads to where it began. -/
theorem pure (a : α) : Leads R (Pure.pure a : Rule α) := fun _ s => F.refl s

/-- Two steps in a row are one step. -/
theorem bind {r : Rule α} {k : α → Rule β} (h : Leads R r)
    (hk : ∀ a, r.Returns a → Leads R (k a)) : Leads R (r >>= k) := by
  intro limit s
  have hr := h limit s
  rcases hrun : r limit s with ⟨a | _ | stop, t⟩ <;> rw [hrun] at hr
  · rw [bind_ok hrun]
    exact F.trans hr (hk a ⟨limit, s, t, hrun⟩ limit t)
  · rw [bind_miss hrun]
    exact hr
  · rw [bind_halt hrun]
    exact hr

/-- The cursor is all that a miss gives back. -/
theorem optional {r : Rule α} (h : Leads R r) : Leads R (optional r) := by
  intro limit s
  have hr := h limit s
  rw [Rule.optional]
  rcases hrun : r limit s with ⟨a | _ | stop, t⟩ <;> rw [hrun] at hr
  · exact hr
  · exact F.trans hr (F.move t s.cursor)
  · exact hr

/-- Setting back the cursor is a step. -/
theorem attempt {r : Rule α} (h : Leads R r) : Leads R (attempt r) := by
  intro limit s
  rw [attempt_state]
  exact F.optional h limit s

/-- Behind a nested rule the level is what it was. -/
theorem nested {r : Rule α} (h : Leads R r) : Leads R (nested r) := by
  intro limit s
  rcases nested_cases r limit s with hrun | ⟨e, hrun⟩ <;> rw [hrun]
  · exact F.level (h limit { s with depth := s.depth + 1 })
  · exact F.log s _

/-- A scan moves the cursor, or raises an error where it stands. -/
theorem scanning (look : Cursor → Except Error (α × Cursor)) : Leads R (scanning look) := by
  intro limit s
  rw [Rule.scanning]
  cases look s.cursor with
  | ok found => exact F.move s found.2
  | error e => exact F.log s _

/-- **All rules respect a frame.** -/
theorem hereditary : Hereditary (Leads R) where
  pure := F.pure
  bind := F.bind
  miss _ s := F.refl s
  fail what _ s := F.expect s what
  exhausted _ s := F.refl s
  optional := F.optional
  attempt := F.attempt
  nested := F.nested
  advancing h := advancing_of_moveTo (fun h hk => F.bind h fun a _ => hk a)
    (fun _ => F.scanning _) (fun c _ s => F.move s c) F.pure (F.optional h)
  log e _ s := F.log s e
  scanning _ := F.scanning _
  returned _ what := returned_of_moveTo (fun h hk => F.bind h fun a _ => hk a)
    (fun _ => F.scanning _) (fun c _ s => F.move s c) fun _ s => F.expect s what

end Frame

/-! ## The level of nesting -/

/-- What a rule does besides nesting leaves the level as it is. -/
theorem frame_level : Frame fun s t => t.depth = s.depth where
  refl _ := rfl
  trans h h' := h'.trans h
  move _ _ := rfl
  log _ _ := rfl
  expect _ _ := rfl
  level h := congrArg (· - 1) h

namespace Rule

variable {α : Type}

/-- The rule ends on the level on which it began. -/
def KeepsLevel ⦃α : Type⦄ (r : Rule α) : Prop := ∀ limit s, (r limit s).state.depth = s.depth

theorem keepsLevel_pure (a : α) : KeepsLevel (pure a : Rule α) := frame_level.pure a

theorem keepsLevel_moveTo (c : Cursor) : KeepsLevel (moveTo c) := fun _ s => frame_level.move s c

theorem keepsLevel_fail (what : Expectation) : KeepsLevel (fail (α := α) what) :=
  fun _ s => frame_level.expect s what

/-- A scan does not nest. -/
theorem keepsLevel_scanning (look : Cursor → Except Error (α × Cursor)) :
    KeepsLevel (scanning look) := frame_level.scanning look

/-- **All rules leave the levels that they enter.** -/
theorem handedDown_keepsLevel : HandedDown KeepsLevel := frame_level.hereditary.handedDown

end Rule

/-! ## The record of the furthest miss -/

/-- A record that one state has is kept by the other one, or has given way to one that is
no less far on. -/
def State.RecordKept (s t : State) : Prop :=
  ∀ f, s.furthest = some f → ∃ f', t.furthest = some f' ∧
    f.cursor.position.offset ≤ f'.cursor.position.offset

/-- One more miss does not put the record back. -/
theorem State.recordKept_expect (s : State) (what : Expectation) :
    s.RecordKept (s.expect what) := by
  intro f hf
  refine ⟨s.furthestAfter what, rfl, ?_⟩
  rw [State.furthestAfter, hf]
  dsimp only
  split
  · exact le_rfl
  · rename_i hfurther
    split
    · split <;> exact le_rfl
    · exact Nat.le_of_not_lt hfurther

/-- The record is replaced by one further on, or gets longer. -/
theorem frame_record : Frame State.RecordKept where
  refl _ f hf := ⟨f, hf, le_rfl⟩
  trans h h' f hf := by
    obtain ⟨f', hf', hle⟩ := h f hf
    obtain ⟨f'', hf'', hle'⟩ := h' f' hf'
    exact ⟨f'', hf'', hle.trans hle'⟩
  move _ _ f hf := ⟨f, hf, le_rfl⟩
  log _ _ f hf := ⟨f, hf, le_rfl⟩
  expect := State.recordKept_expect
  level h := h

/-- However the rule ends, the record of the furthest miss has not gone back. -/
def Rule.KeepsRecord ⦃α : Type⦄ (r : Rule α) : Prop :=
  ∀ limit (s : State), s.RecordKept (r limit s).state

/-- **No rule puts the record back.** -/
theorem Rule.handedDown_keepsRecord : HandedDown KeepsRecord :=
  frame_record.hereditary.handedDown

end Michelson
