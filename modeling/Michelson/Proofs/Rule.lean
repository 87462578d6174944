import Mathlib.Data.List.Forall2
import Michelson.Parse

/-!
# Laws of rules

Rules form a monad, and a run of a sequence of rules is a run of the first and
then of the second. The rules of the grammar that look at a word or at an open
parenthesis before they decide are named here, so that later statements can
speak of them.
-/

namespace Michelson

/-! ## The monad -/

namespace Rule

variable {α β γ : Type}

/-- A run of a sequence goes on where the first rule has read something. -/
theorem bind_ok {r : Rule α} {k : α → Rule β} {limit : Option Nat} {s t : State} {a : α}
    (h : r limit s = ⟨.ok a, t⟩) : (r >>= k) limit s = k a limit t := by
  change Rule.bind r k limit s = _
  rw [Rule.bind, h]

/-- A sequence misses where its first rule does, with what that rule leaves behind. -/
theorem bind_miss {r : Rule α} {k : α → Rule β} {limit : Option Nat} {s t : State}
    (h : r limit s = ⟨.miss, t⟩) : (r >>= k) limit s = ⟨.miss, t⟩ := by
  change Rule.bind r k limit s = _
  rw [Rule.bind, h]

/-- A sequence halts where its first rule does. -/
theorem bind_halt {r : Rule α} {k : α → Rule β} {limit : Option Nat} {s t : State} {stop : Stop}
    (h : r limit s = ⟨.halt stop, t⟩) : (r >>= k) limit s = ⟨.halt stop, t⟩ := by
  change Rule.bind r k limit s = _
  rw [Rule.bind, h]

instance : LawfulMonad Rule := LawfulMonad.mk' Rule
  (fun r => by
    funext limit s
    change Rule.bind r (fun a => Rule.pure a) limit s = r limit s
    rw [Rule.bind]
    rcases r limit s with ⟨_ | _ | _, t⟩ <;> rfl)
  (fun _ _ => rfl)
  (fun r k l => by
    funext limit s
    change Rule.bind (Rule.bind r k) l limit s = Rule.bind r (fun a => Rule.bind (k a) l) limit s
    simp only [Rule.bind]
    rcases r limit s with ⟨_ | _ | _, t⟩ <;> rfl)

/-- Inversion for sequences. -/
theorem bind_eq_ok {r : Rule α} {k : α → Rule β} {limit : Option Nat} {s u : State} {b : β}
    (h : (r >>= k) limit s = ⟨.ok b, u⟩) :
    ∃ a t, r limit s = ⟨.ok a, t⟩ ∧ k a limit t = ⟨.ok b, u⟩ := by
  rcases hr : r limit s with ⟨a | _ | _, t⟩
  · rw [bind_ok hr] at h
    exact ⟨a, t, rfl, h⟩
  · rw [bind_miss hr] at h
    cases h
  · rw [bind_halt hr] at h
    cases h

/-! ### Rules that neither miss nor halt -/

/-- The cursor is read without a change to the state. -/
theorem cursor_bind (k : Cursor → Rule β) (limit : Option Nat) (s : State) :
    (cursor >>= k) limit s = k s.cursor limit s := rfl

/-- Only the cursor moves; what was noted down stays. -/
theorem moveTo_bind (c : Cursor) (k : Unit → Rule β) (limit : Option Nat) (s : State) :
    (moveTo c >>= k) limit s = k () limit { s with cursor := c } := rfl

theorem rest_bind (k : List Char → Rule β) (limit : Option Nat) (s : State) :
    (rest >>= k) limit s = k s.cursor.rest limit s := rfl

theorem position_bind (k : Position → Rule β) (limit : Option Nat) (s : State) :
    (position >>= k) limit s = k s.cursor.position limit s := rfl

theorem peek?_bind (k : Option Char → Rule β) (limit : Option Nat) (s : State) :
    (peek? >>= k) limit s = k s.cursor.rest.head? limit s := rfl

theorem advance_bind (n : Nat) (k : Unit → Rule β) (limit : Option Nat) (s : State) :
    (advance n >>= k) limit s = k () limit { s with cursor := s.cursor.skip n } := rfl

/-- A word is looked at and not passed. -/
theorem peekWord?_bind (k : Option (List Char) → Rule β) (limit : Option Nat) (s : State) :
    (peekWord? >>= k) limit s = k (word? s.cursor.rest) limit s := rfl

/-! ### Alternatives -/

/-- What follows an optional rule sees whether the rule has read something. -/
theorem optional_bind (r : Rule α) (k : Option α → Rule β) (limit : Option Nat) (s : State) :
    (optional r >>= k) limit s =
      match r limit s with
      | ⟨.ok a, t⟩ => k (some a) limit t
      | ⟨.miss, t⟩ => k none limit { t with cursor := s.cursor }
      | ⟨.halt stop, t⟩ => ⟨.halt stop, t⟩ := by
  change Rule.bind (optional r) k limit s = _
  rw [Rule.bind, optional]
  rcases r limit s with ⟨_ | _ | _, t⟩ <;> rfl

/-! ### Nesting -/

/-- Runs `r` one level deeper, whatever the limit. -/
def deeper (r : Rule α) : Rule α := fun limit s =>
  let reply := r limit { s with depth := s.depth + 1 }
  ⟨reply.verdict, { reply.state with depth := reply.state.depth - 1 }⟩

/-- Without a limit the depth is counted and nothing is asked of it. -/
theorem nested_none (r : Rule α) (s : State) : nested r none s = deeper r none s := rfl

/-- The limit is asked for on the way in, and before any text is looked at. -/
theorem nested_some (r : Rule α) (l : Nat) (s : State) :
    nested r (some l) s =
      if s.depth ≥ l then raise (.depth s.cursor.position l) (some l) s
      else deeper r (some l) s := rfl

/-! ### How runs end -/

section Ends

variable {r : Rule α} {limit : Option Nat} {s t : State} {a : α} {stop : Stop}

/-- Inversion for attempts. -/
theorem attempt_eq_ok (h : attempt r limit s = ⟨.ok a, t⟩) : r limit s = ⟨.ok a, t⟩ := by
  rw [attempt] at h
  rcases hr : r limit s with ⟨_ | _ | _, u⟩ <;> rw [hr] at h <;> cases h
  rfl

/-- Inversion for nested rules. -/
theorem nested_eq_ok (h : nested r limit s = ⟨.ok a, t⟩) :
    ∃ u, r limit { s with depth := s.depth + 1 } = ⟨.ok a, u⟩ := by
  have hdeeper (h : deeper r limit s = ⟨.ok a, t⟩) :
      ∃ u, r limit { s with depth := s.depth + 1 } = ⟨.ok a, u⟩ :=
    ⟨_, congrArg (Reply.mk · _) (congrArg Reply.verdict h)⟩
  cases limit with
  | none => exact hdeeper h
  | some l =>
    rw [nested_some] at h
    split at h
    · cases h
    · exact hdeeper h

/-- Nothing that follows a rule undoes that it halts. -/
theorem bind_halts {k : α → Rule β} (h : (r limit s).verdict = .halt stop) :
    ((r >>= k) limit s).verdict = .halt stop := by
  rcases hrun : r limit s with ⟨_ | _ | _, t⟩ <;> rw [hrun] at h <;> cases h
  rw [bind_halt hrun]

/-- What is optional is not optional any more once it has halted. -/
theorem optional_halts (h : (r limit s).verdict = .halt stop) :
    (optional r limit s).verdict = .halt stop := by
  rcases hrun : r limit s with ⟨_ | _ | _, t⟩ <;> rw [hrun] at h <;> cases h
  rw [optional, hrun]

/-- An attempt takes back no halt. -/
theorem attempt_halts (h : (r limit s).verdict = .halt stop) :
    (attempt r limit s).verdict = .halt stop := by
  rcases hrun : r limit s with ⟨_ | _ | _, t⟩ <;> rw [hrun] at h <;> cases h
  rw [attempt, hrun]

/-! ### Rules that never miss -/

/-- A rule that does not miss. -/
def NeverMisses (r : Rule α) : Prop := ∀ limit s, (r limit s).verdict ≠ .miss

namespace NeverMisses

variable {σ : Type}

/-- In the form in which case splits on a run leave it. -/
theorem ne (h : NeverMisses r) : r limit s ≠ ⟨.miss, t⟩ :=
  fun hrun => h limit s (congrArg Reply.verdict hrun)

theorem pure (a : α) : NeverMisses (pure a) := fun _ _ h => nomatch h

/-- A sequence never misses if neither of its rules does. -/
theorem bind {r : Rule α} {q : α → Rule β} (h : r.NeverMisses) (hq : ∀ a, (q a).NeverMisses) :
    (r >>= q).NeverMisses := by
  intro limit s
  rcases hr : r limit s with ⟨a | _ | stop, t⟩
  · rw [bind_ok hr]
    exact hq a limit t
  · exact absurd (congrArg Reply.verdict hr) (h limit s)
  · rw [bind_halt hr]
    exact fun h => nomatch h

/-- What is optional turns a miss into the absence of a value. -/
theorem optional (r : Rule α) : (optional r).NeverMisses := by
  intro limit s
  rw [Rule.optional]
  rcases r limit s with ⟨a | _ | stop, t⟩ <;> rintro ⟨⟩

/-- A repetition stops at the first miss, with what it has. -/
theorem manyWithin (r : Rule α) (bound : Nat) : (manyWithin r bound).NeverMisses := by
  induction bound with
  | zero => exact fun _ _ h => nomatch h
  | succ bound ih =>
    refine bind (optional r) fun a? => ?_
    cases a? with
    | some a => exact bind ih fun _ => pure _
    | none => exact pure []

/-- Whether the text is passed decides about the value, not about the verdict. -/
theorem advancing (r : Rule α) : (advancing r).NeverMisses := by
  refine bind (fun _ _ h => nomatch h) fun before => bind (optional r) fun x => ?_
  cases x with
  | none => exact pure none
  | some a =>
    refine bind (fun _ _ h => nomatch h) fun after => ?_
    split
    · exact pure _
    · exact bind (fun _ _ h => nomatch h) fun _ => pure none

/-- A round of a group comes back without a member if none can be read. -/
theorem firstAdvancing (rs : List (Rule α)) : (firstAdvancing rs).NeverMisses := by
  induction rs with
  | nil => exact pure none
  | cons r rs ih =>
    refine bind (advancing r) fun x => ?_
    cases x with
    | some a => exact pure _
    | none =>
      refine bind ih fun y => ?_
      cases y with
      | some y => exact pure _
      | none => exact pure none

/-- A group takes what it can get, and be it nothing. -/
theorem groupWithin (rounds : Nat) (members : List (Rule (σ → σ))) (x : σ) :
    (groupWithin rounds members x).NeverMisses := by
  induction rounds generalizing members x with
  | zero => exact pure x
  | succ rounds ih =>
    refine bind (firstAdvancing members) fun y => ?_
    cases y with
    | some y => exact ih _ _
    | none => exact pure x

end NeverMisses

end Ends

/-! ## Rules that decide by what comes next -/

/-- Reads a word that `f` knows, and yields what `f` makes of it. -/
def headWord (f : String → Option α) (what : Expectation) : Rule α := do
  match ← peekWord? with
  | none => fail what
  | some w =>
    match f (String.ofList w) with
    | none => fail what
    | some head => do
      token w.length
      pure head

/-- Runs `inner` at an open parenthesis, and `plain` elsewhere. -/
def unlessOpen (inner plain : Rule α) : Rule α := do
  match ← peek? with
  | some '(' => inner
  | _ => plain

/-- The decision is made on one character and changes nothing. -/
theorem unlessOpen_run (inner plain : Rule α) (limit : Option Nat) (s : State) :
    unlessOpen inner plain limit s =
      if s.cursor.rest.head? = some '(' then inner limit s else plain limit s := by
  rw [unlessOpen, peek?_bind]
  by_cases h : s.cursor.rest.head? = some '('
  · rw [if_pos h, h]
    rfl
  · rw [if_neg h]
    refine congrFun (congrFun ?_ limit) s
    split
    · rename_i h'
      exact absurd h' h
    · rfl

/-- Something in braces. -/
def enclosed (r : Rule α) : Rule α := do
  symbol '{'
  let a ← r
  symbol '}'
  pure a

/-- Notes down an event at the cursor. -/
def marking (e : Position → Event) : Rule Unit := do
  let p ← position
  log (e p)

/-- Runs `r` and notes down an event with the place where it began and what it
read. -/
def recording (e : Position → α → Event) (r : Rule α) : Rule α := do
  let p ← position
  let a ← r
  log (e p a)
  pure a

/-- Nothing follows a failure. -/
theorem fail_bind (what : Expectation) (k : α → Rule β) : (fail what >>= k) = fail what := rfl

/-- Where the word is unknown, nothing of what follows is reached. -/
theorem headWord_bind (f : String → Option α) (what : Expectation) (k : α → Rule β) :
    headWord f what >>= k = (do
      match ← peekWord? with
      | none => fail what
      | some w =>
        match f (String.ofList w) with
        | none => fail what
        | some head => do
          token w.length
          k head) := by
  rw [headWord, bind_assoc]
  congr 1
  funext w?
  cases w? with
  | none => rfl
  | some w =>
    cases hf : f (String.ofList w) with
    | none => simp only [hf, fail_bind]
    | some head => simp only [hf, bind_assoc, pure_bind]

end Rule

/-! ## What rules note down -/

/-- Whether the grammar states the expectation: one that names a symbol or a keyword names
one of its own, and there are none in other words. -/
def Expectation.isOfGrammar : Expectation → Bool
  | token text => text ∈ ["\x7b", "\x7d", "(", ")", ";", "Elt", "parameter", "storage", "code"]
  | stated _ => false
  | _ => true

/-- Whether the event is one of progress: neither a miss nor an error. -/
def Event.isMark : Event → Bool
  | missed _ _ => false
  | raised _ => false
  | _ => true

/-! ## The rules of the grammar -/

namespace Grammar

open Rule

/-- The head of an instruction. The word and the layout after it are passed before the
word is looked up. -/
def mnemonicWord : Rule Instr.Head := do
  match ← peekWord? with
  | none => fail .instruction
  | some w => do
    let start ← cursor
    token w.length
    match Instr.Head.ofMnemonic? (String.ofList w) with
    | some head => pure head
    | none => do
      moveTo start
      fail .instruction

/-- Unlike behind `headWord`, the cursor is brought back by hand where the name is unknown. -/
theorem mnemonicWord_bind {α : Type} (k : Instr.Head → Rule α) :
    mnemonicWord >>= k = (do
      match ← peekWord? with
      | none => fail .instruction
      | some w => do
        let start ← cursor
        token w.length
        match Instr.Head.ofMnemonic? (String.ofList w) with
        | some head => k head
        | none => do
          moveTo start
          fail .instruction) := by
  rw [mnemonicWord, bind_assoc]
  congr 1
  funext w?
  cases w? with
  | none => rfl
  | some w =>
    simp only [bind_assoc]
    congr 1
    funext start
    congr 1
    funext _
    cases Instr.Head.ofMnemonic? (String.ofList w) with
    | none => rfl
    | some head => rfl

variable (g : Knot)

/-- A type is wrapped in parentheses, or a keyword with notes and parts. -/
theorem typeRule_eq (withField : Bool) :
    typeRule g withField = nested (attempt (unlessOpen (parenthesized (g.type withField)) (do
      let head ← headWord Ty.Head.ofKeyword? .type
      let notes ← nodeNotes withField
      let t ← components g notes.type head
      pure (notes.field, t)))) := by
  rw [headWord_bind]
  refine congrArg (fun k => nested (attempt (unlessOpen (parenthesized (g.type withField))
    (peekWord? >>= k)))) (funext fun w? => ?_)
  rcases w? with _ | w
  · rfl
  · dsimp only
    cases Ty.Head.ofKeyword? (String.ofList w) <;> rfl

/-- A comparable type is wrapped in parentheses, or a keyword with a note. -/
theorem comparableRule_eq :
    comparableRule g = nested (attempt (unlessOpen (parenthesized g.comparable) (do
      let base ← headWord Base.ofKeyword? .comparable
      let n ← noteSlot .type
      pure ⟨base, n⟩))) := by
  rw [headWord_bind]
  refine congrArg (fun k => nested (attempt (unlessOpen (parenthesized g.comparable)
    (peekWord? >>= k)))) (funext fun w? => ?_)
  rcases w? with _ | w
  · rfl
  · dsimp only
    cases Base.ofKeyword? (String.ofList w) <;> rfl

theorem valueRule_eq :
    valueRule g = nested (attempt (unlessOpen (parenthesized g.value) (plainValue g))) := rfl

/-- A keyword of values decides which parts follow. -/
theorem dataWord_eq : dataWord g = headWord Data.Head.ofKeyword? .dataWord >>= dataParts g := by
  rw [headWord_bind]
  refine congrArg (peekWord? >>= ·) (funext fun w? => ?_)
  rcases w? with _ | w
  · rfl
  · dsimp only
    cases Data.Head.ofKeyword? (String.ofList w) <;> rfl

theorem instruction_eq : instruction g = attempt (mnemonicWord >>= arguments g) := by
  rw [mnemonicWord_bind]
  rfl

theorem bracedContract_eq : bracedContract g = optional (enclosed (contractRule g)) := rfl

/-- Only a macro that is read to its end is noted down. -/
theorem macroRule_eq :
    macroRule g = recording .macroRead
      (firstOf (fail .macroName) ((macroNames g).map (macroBy g))) := rfl

/-- A block is noted down on the way in, before its brace is looked for. -/
theorem blockRule_eq : blockRule g = nested (marking .block >>= fun _ => braced (step g)) := rfl

theorem typeSection_eq (part : Part) : typeSection g part = (do
    keyword part.keyword
    marking (.part part)
    let t ← g.plainType
    symbol ';'
    pure t) := rfl

theorem codeSection_eq : codeSection g = (do
    keyword Part.code.keyword
    marking (.part .code)
    let block ← g.block
    let _ ← optional (symbol ';')
    pure block) := rfl

end Grammar

end Michelson
