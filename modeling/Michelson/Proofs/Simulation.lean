import Michelson.Proofs.Rule

/-!
# Runs that keep step

Many statements about the grammar compare two runs: the same rule with more
calls left, under another limit, on another layout of the same tokens. They have
one shape. Two runs that begin in related states end alike: both read something,
and the values and the states are related; or both miss; or both halt. A
`Setting` says what is related to what, and which halts excuse a run from
keeping step. `Sim` is the statement about two rules, and the sequence, the
alternatives and the repetitions of related rules are related.

A miss gives the cursor back in the end, so after a miss nothing need be asked of
the cursors. That is why a setting relates the memories of the states, which a
miss leaves behind. The memories may or may not see the cursors; if they do, they
have to stay related when both cursors are given back.
-/

namespace Michelson

/-- What two runs that keep step have in common. -/
structure Setting where
  /-- the limit on nesting of the first run -/
  limit : Option Nat
  /-- the limit on nesting of the second run -/
  limit' : Option Nat
  /-- what the states have in common -/
  memory : State → State → Prop
  /-- the pairs of cursors that may be given back -/
  placed : Cursor → Cursor → Prop
  /-- what two halts have in common -/
  halts : Stop → State → Stop → State → Prop
  /-- the halts of the first run after which the second may end in any way -/
  excused : Stop → Prop
  /-- the halts of the second run after which the first may end in any way -/
  excused' : Stop → Prop
  /-- memories stay related when cursors are given back -/
  moved : ∀ {s s' : State} {c c' : Cursor}, placed c c' → memory s s' →
    memory { s with cursor := c } { s' with cursor := c' }

namespace Setting

variable {α β : Type}

/-- Two runs have ended alike. -/
def Alike (S : Setting) (post : Cursor → Cursor → Prop) (V : α → β → Prop) (x : Reply α)
    (y : Reply β) : Prop :=
  match x.verdict, y.verdict with
  | .ok a, .ok b => V a b ∧ post x.state.cursor y.state.cursor ∧ S.memory x.state y.state
  | .miss, .miss => S.memory x.state y.state
  | .halt stop, .halt stop' =>
    S.excused stop ∨ S.excused' stop' ∨ S.halts stop x.state stop' y.state
  | .halt stop, _ => S.excused stop
  | _, .halt stop' => S.excused' stop'
  | _, _ => False

namespace Alike

variable {S : Setting} {post : Cursor → Cursor → Prop} {V : α → β → Prop} {stop : Stop}
  {t : State}

/-- An excused halt of the first run goes with every end of the second. -/
theorem of_excused (h : S.excused stop) (y : Reply β) : S.Alike post V ⟨.halt stop, t⟩ y := by
  rcases y with ⟨_ | _ | _, u⟩
  exacts [h, h, .inl h]

/-- An excused halt of the second run goes with every end of the first. -/
theorem of_excused' (h : S.excused' stop) (x : Reply α) : S.Alike post V x ⟨.halt stop, t⟩ := by
  rcases x with ⟨_ | _ | _, u⟩
  exacts [h, h, .inr (.inl h)]

end Alike

end Setting

/-- Two rules keep step: from related states they end alike. -/
def Sim (S : Setting) {α β : Type} (pre post : Cursor → Cursor → Prop) (V : α → β → Prop)
    (r : Rule α) (r' : Rule β) : Prop :=
  ∀ s s' : State, pre s.cursor s'.cursor → S.memory s s' →
    S.Alike post V (r S.limit s) (r' S.limit' s')

namespace Sim

open Rule

variable {S : Setting} {α β γ δ : Type} {pre mid post : Cursor → Cursor → Prop}
  {V : α → β → Prop} {W : γ → δ → Prop} {r : Rule α} {r' : Rule β}

/-! ## Sequences -/

theorem pure {a : α} {b : β} (h : V a b) : Sim S pre pre V (pure a) (pure b) :=
  fun _ _ hpre hmem => ⟨h, hpre, hmem⟩

/-- If the first rules have read something, the second ones start from places and values that
correspond; if not, both runs end alike. -/
theorem bind {k : α → Rule γ} {k' : β → Rule δ} (h : Sim S pre mid V r r')
    (hk : ∀ a b, V a b → Sim S mid post W (k a) (k' b)) :
    Sim S pre post W (r >>= k) (r' >>= k') := by
  intro s s' hpre hmem
  have hr := h s s' hpre hmem
  rcases hx : r S.limit s with ⟨a | _ | stop, t⟩ <;>
    rcases hy : r' S.limit' s' with ⟨b | _ | stop', t'⟩ <;>
    rw [hx, hy] at hr
  case ok.ok =>
    rw [bind_ok hx, bind_ok hy]
    exact hk a b hr.1 t t' hr.2.1 hr.2.2
  case ok.miss => exact hr.elim
  case miss.ok => exact hr.elim
  case miss.miss =>
    rw [bind_miss hx, bind_miss hy]
    exact hr
  case halt.halt =>
    rw [bind_halt hx, bind_halt hy]
    exact hr
  -- one of the runs has an excuse, and the other may go on to any end
  case halt.ok =>
    rw [bind_halt hx]
    exact .of_excused hr _
  case halt.miss =>
    rw [bind_halt hx]
    exact .of_excused hr _
  case ok.halt =>
    rw [bind_halt hy]
    exact .of_excused' hr _
  case miss.halt =>
    rw [bind_halt hy]
    exact .of_excused' hr _

/-- Rules that keep step do so from fewer states, and with less to show. -/
theorem weaken {pre' post' : Cursor → Cursor → Prop} {V' : α → β → Prop}
    (h : Sim S pre post V r r') (hpre : ∀ c c', pre' c c' → pre c c')
    (hpost : ∀ c c', post c c' → post' c c') (hV : ∀ a b, V a b → V' a b) :
    Sim S pre' post' V' r r' := by
  intro s s' hp hmem
  have hr := h s s' (hpre _ _ hp) hmem
  revert hr
  rcases r S.limit s with ⟨a | _ | stop, t⟩ <;>
    rcases r' S.limit' s' with ⟨b | _ | stop', t'⟩ <;>
    intro hr
  case ok.ok => exact ⟨hV _ _ hr.1, hpost _ _ hr.2.1, hr.2.2⟩
  all_goals exact hr

/-! ## Alternatives -/

theorem miss : Sim S pre post V miss miss := fun _ _ _ hmem => hmem

/-- The places where both runs began correspond, so they may be set back to. -/
theorem attempt (hp : ∀ c c', pre c c' → S.placed c c') (h : Sim S pre post V r r') :
    Sim S pre post V (attempt r) (attempt r') := by
  intro s s' hpre hmem
  have hr := h s s' hpre hmem
  revert hr
  unfold Rule.attempt
  rcases r S.limit s with ⟨a | _ | stop, t⟩ <;>
    rcases r' S.limit' s' with ⟨b | _ | stop', t'⟩ <;>
    intro hr
  case miss.miss => exact S.moved (hp _ _ hpre) hr
  all_goals exact hr

/-- Where nothing is asked of the cursors after a miss, giving them back makes no
difference. -/
theorem of_attempt (hp : ∀ c c', S.placed c c')
    (h : Sim S pre post V (Rule.attempt r) (Rule.attempt r')) : Sim S pre post V r r' := by
  intro s s' hpre hmem
  have hr := h s s' hpre hmem
  revert hr
  unfold Rule.attempt
  rcases r S.limit s with ⟨a | _ | stop, t⟩ <;>
    rcases r' S.limit' s' with ⟨b | _ | stop', t'⟩ <;>
    intro hr
  case miss.miss =>
    have hm : S.memory { t with cursor := s.cursor } { t' with cursor := s'.cursor } := hr
    have hm' := S.moved (hp t.cursor t'.cursor) hm
    exact hm'
  all_goals exact hr

/-- What follows an optional rule starts from where the rule has led, or from where it
stood. -/
theorem optional_bind {k : Option α → Rule γ} {k' : Option β → Rule δ}
    (hp : ∀ c c', pre c c' → S.placed c c') (h : Sim S pre mid V r r')
    (hsome : ∀ a b, V a b → Sim S mid post W (k (some a)) (k' (some b)))
    (hnone : Sim S pre post W (k none) (k' none)) :
    Sim S pre post W (optional r >>= k) (optional r' >>= k') := by
  intro s s' hpre hmem
  have hr := h s s' hpre hmem
  rw [Rule.optional_bind, Rule.optional_bind]
  rcases hx : r S.limit s with ⟨a | _ | stop, t⟩ <;>
    rcases hy : r' S.limit' s' with ⟨b | _ | stop', t'⟩ <;>
    rw [hx, hy] at hr
  case ok.ok => exact hsome a b hr.1 t t' hr.2.1 hr.2.2
  case miss.miss => exact hnone _ _ hpre (S.moved (hp _ _ hpre) hr)
  case halt.halt => exact hr
  case ok.miss => exact hr.elim
  case miss.ok => exact hr.elim
  case halt.ok => exact .of_excused hr _
  case halt.miss => exact .of_excused hr _
  case ok.halt => exact .of_excused' hr _
  case miss.halt => exact .of_excused' hr _

theorem optional (hp : ∀ c c', pre c c' → S.placed c c') (h : Sim S pre pre V r r') :
    Sim S pre pre (Option.Rel V) (optional r) (optional r') := by
  intro s s' hpre hmem
  have hr := h s s' hpre hmem
  revert hr
  unfold Rule.optional
  rcases r S.limit s with ⟨a | _ | stop, t⟩ <;>
    rcases r' S.limit' s' with ⟨b | _ | stop', t'⟩ <;>
    intro hr
  case ok.ok => exact ⟨.some hr.1, hr.2⟩
  case miss.miss => exact ⟨.none, hpre, S.moved (hp _ _ hpre) hr⟩
  case ok.miss => exact hr.elim
  case miss.ok => exact hr.elim
  all_goals exact hr

end Sim

end Michelson
