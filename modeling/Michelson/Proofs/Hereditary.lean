import Michelson.Proofs.Calls
import Michelson.Proofs.Scans

/-!
# Properties that the grammar hands down

Some statements are about one run alone: what errors it raises, where it may
stand, what a limit can do to it. A property of rules is hereditary if the rules
that move the cursor have it and every combinator hands it on. Then all rules of
the grammar have it, whatever number of calls is left: the property is taken for
a relation between a rule and any other, and the grammar respects this relation.

Parts of the grammar ask for less, and all of it asks only for the expectations,
events and scans that it has.

* `Handed` lists what is asked of the property for tokens and combinators,
  `HandedFlat` for rules that do not nest, and `HandedDown` for the grammar.
* `HandedDown.congruence` turns the property into a congruence.
* `Hereditary` asks for all expectations, events and scans.
* `HandedDown.tied` and `Hereditary.tied` are the conclusions for the rules of the
  grammar.
-/

namespace Michelson

open Rule

/-! ## What rules return -/

namespace Rule

variable {α β : Type}

/-- The rule can end with this value. -/
def Returns (r : Rule α) (a : α) : Prop := ∃ limit s t, r limit s = ⟨.ok a, t⟩

theorem returns_pure {a b : α} (h : (pure a : Rule α).Returns b) : a = b := by
  obtain ⟨limit, s, t, h⟩ := h
  cases h
  rfl

/-- What a sequence returns is returned by its second rule, for a value of the first. -/
theorem returns_bind {r : Rule α} {k : α → Rule β} {b : β} (h : (r >>= k).Returns b) :
    ∃ a, r.Returns a ∧ (k a).Returns b := by
  obtain ⟨limit, s, u, h⟩ := h
  obtain ⟨a, t, hr, hk⟩ := bind_eq_ok h
  exact ⟨a, ⟨limit, s, t, hr⟩, limit, t, u, hk⟩

/-- A value that an optional rule returns is one of the rule's. -/
theorem returns_optional {r : Rule α} {a? : Option α} (h : (optional r).Returns a?) :
    ∀ a ∈ a?, r.Returns a := by
  rintro a rfl
  obtain ⟨limit, s, u, h⟩ := h
  rw [optional] at h
  rcases hr : r limit s with ⟨a' | _ | _, t⟩ <;> rw [hr] at h <;> cases h
  exact ⟨limit, s, _, hr⟩

theorem returns_attempt {r : Rule α} {a : α} (h : (attempt r).Returns a) : r.Returns a := by
  obtain ⟨limit, s, t, h⟩ := h
  exact ⟨limit, s, t, attempt_eq_ok h⟩

/-- The depth makes no new values. -/
theorem returns_nested {r : Rule α} {a : α} (h : (nested r).Returns a) : r.Returns a := by
  obtain ⟨limit, s, t, h⟩ := h
  obtain ⟨u, h⟩ := nested_eq_ok h
  exact ⟨limit, _, u, h⟩

/-- What alternatives return is returned by one of them. -/
theorem returns_firstOf {last : Rule α} {rs : List (Rule α)} {a : α}
    (h : (firstOf last rs).Returns a) : ∃ r ∈ last :: rs, r.Returns a := by
  induction rs with
  | nil => exact ⟨last, List.mem_cons_self, h⟩
  | cons r rs ih =>
    obtain ⟨a?, hr, h⟩ := returns_bind h
    cases a? with
    | some b =>
      obtain rfl := returns_pure h
      exact ⟨r, by simp, returns_optional hr b rfl⟩
    | none =>
      obtain ⟨r', hmem, hr'⟩ := ih h
      refine ⟨r', ?_, hr'⟩
      rcases List.mem_cons.mp hmem with rfl | hmem
      · exact List.mem_cons_self
      · simp [hmem]

/-- A value that has been found to advance is one of the rule's. -/
theorem returns_advancing {r : Rule α} {a? : Option α} (h : (advancing r).Returns a?) :
    ∀ a ∈ a?, r.Returns a := by
  obtain ⟨before, -, h⟩ := Rule.returns_bind h
  obtain ⟨b?, hb, h⟩ := Rule.returns_bind h
  cases b? with
  | none =>
    cases returns_pure h
    simp
  | some b =>
    obtain ⟨after, -, h⟩ := Rule.returns_bind h
    split at h
    · cases returns_pure h
      exact Rule.returns_optional hb
    · obtain ⟨_, -, h⟩ := Rule.returns_bind h
      cases returns_pure h
      simp

/-- The members that are left are some of those that were there. -/
theorem returns_firstAdvancing {rs : List (Rule α)} {found : α × List (Rule α)}
    (h : (firstAdvancing rs).Returns (some found)) : found.2.Sublist rs := by
  induction rs generalizing found with
  | nil => cases returns_pure h
  | cons r rs ih =>
    obtain ⟨a?, -, h⟩ := returns_bind h
    cases a? with
    | some a =>
      cases returns_pure h
      exact List.sublist_cons_self r rs
    | none =>
      obtain ⟨found?, hrs, h⟩ := returns_bind h
      cases found? with
      | none => cases returns_pure h
      | some rest =>
        cases returns_pure h
        exact (ih hrs).cons_cons r

end Rule

/-- Only a token that is taken has a value. -/
theorem Answer.returns_act {α : Type} {x : Answer α} {a : α} (h : x.act.Returns a) :
    ∃ n, x = .taken n a := by
  cases x with
  | taken n b =>
    obtain ⟨_, -, h⟩ := returns_bind h
    exact ⟨n, by rw [returns_pure h]⟩
  | missed =>
    obtain ⟨_, _, _, h⟩ := h
    cases h
  | refused skip what =>
    have hinner : (do advance skip; fail what : Rule α).Returns a := returns_attempt h
    obtain ⟨_, -, _, _, _, h⟩ := returns_bind hinner
    cases h
  | returned length what =>
    obtain ⟨_, -, h⟩ := returns_bind h
    obtain ⟨_, -, h⟩ := returns_bind h
    obtain ⟨_, -, _, _, _, h⟩ := returns_bind h
    cases h
  | stopped e =>
    obtain ⟨_, -, _, _, _, h⟩ := returns_bind h
    cases h

section Lexical

variable {α : Type} {look : List Char → Answer α} {table : Option Token → Reading α}

/-- What a lexical rule reads is what its table says of a token in front. -/
theorem Lexical.eq_ok (h : Lexical look table) {limit : Option Nat} {s t : State} {a : α}
    (hrun : lexical look limit s = ⟨.ok a, t⟩) : ∃ (token : Token) (tail : List Char),
      s.cursor.rest = token.text ++ tail ∧ token.isValid = true ∧
        token.endsBefore tail.head? = true ∧ table (some token) = .taken a := by
  rw [lexical_run] at hrun
  obtain ⟨n, hlook⟩ := Answer.returns_act ⟨limit, s, t, hrun⟩
  obtain ⟨token, tail, hrest, rfl, hv, he⟩ := h.sound hlook
  have hshows := h.shows hv he
  rw [← hrest, hlook] at hshows
  refine ⟨token, tail, hrest, hv, he, ?_⟩
  rcases htable : table (some token) <;> rw [htable] at hshows
  case taken b => rw [hshows.2]
  all_goals exact hshows.elim

/-- A value of a lexical rule stands in its table. -/
theorem Lexical.returns (h : Lexical look table) {a : α} (ha : (lexical look).Returns a) :
    ∃ token, table (some token) = .taken a := by
  obtain ⟨limit, s, t, hrun⟩ := ha
  obtain ⟨token, -, -, -, -, htable⟩ := h.eq_ok hrun
  exact ⟨token, htable⟩

end Lexical

/-! ## Hereditary properties -/

/-- A property that the tokens of the grammar have and the combinators hand on. Nesting
and misses that record nothing are left out. -/
structure Handed (P : ∀ ⦃α : Type⦄, Rule α → Prop) : Prop where
  pure {α : Type} (a : α) : P (pure a : Rule α)
  bind {α β : Type} {r : Rule α} {k : α → Rule β} :
    P r → (∀ a, r.Returns a → P (k a)) → P (r >>= k)
  fail {α : Type} {what : Expectation} : what.isOfGrammar → P (fail (α := α) what)
  exhausted {α : Type} : P (exhausted (α := α))
  optional {α : Type} {r : Rule α} : P r → P (optional r)
  attempt {α : Type} {r : Rule α} : P r → P (attempt r)
  advancing {α : Type} {r : Rule α} : P r → P (advancing r)
  mark {e : Event} : e.isMark → P (log e)
  scanning {α : Type} {look : Cursor → Except Error (α × Cursor)} :
    QuotingScan look → P (scanning look)
  /-- a token that is refused after it has been passed -/
  returned {α : Type} (n : Nat) {what : Expectation} :
    what.isOfGrammar → P (Answer.returned (α := α) n what).act

/-- What rules that do not nest ask for: names may be refused silently. -/
structure HandedFlat (P : ∀ ⦃α : Type⦄, Rule α → Prop) : Prop extends Handed P where
  miss {α : Type} : P (miss (α := α))

/-- What the whole grammar asks for. -/
structure HandedDown (P : ∀ ⦃α : Type⦄, Rule α → Prop) : Prop extends HandedFlat P where
  nested {α : Type} {r : Rule α} : P r → P (nested r)

/-- A property that all combinators hand on, whatever is expected or noted down. -/
structure Hereditary (P : ∀ ⦃α : Type⦄, Rule α → Prop) : Prop where
  pure {α : Type} (a : α) : P (pure a : Rule α)
  bind {α β : Type} {r : Rule α} {k : α → Rule β} :
    P r → (∀ a, r.Returns a → P (k a)) → P (r >>= k)
  miss {α : Type} : P (miss (α := α))
  fail {α : Type} (what : Expectation) : P (fail (α := α) what)
  exhausted {α : Type} : P (exhausted (α := α))
  optional {α : Type} {r : Rule α} : P r → P (optional r)
  attempt {α : Type} {r : Rule α} : P r → P (attempt r)
  nested {α : Type} {r : Rule α} : P r → P (nested r)
  advancing {α : Type} {r : Rule α} : P r → P (advancing r)
  log (e : Event) : P (log e)
  scanning {α : Type} {look : Cursor → Except Error (α × Cursor)} : Scan look → P (scanning look)
  /-- a token that is refused after it has been passed -/
  returned {α : Type} (n : Nat) (what : Expectation) : P (Answer.returned (α := α) n what).act

/-- A property that asks nothing of expectations, events and scans is handed down. -/
theorem Hereditary.handedDown {P : ∀ ⦃α : Type⦄, Rule α → Prop} (H : Hereditary P) :
    HandedDown P where
  pure := H.pure
  bind := H.bind
  miss := H.miss
  nested := H.nested
  fail _ := H.fail _
  exhausted := H.exhausted
  optional := H.optional
  attempt := H.attempt
  advancing := H.advancing
  mark _ := H.log _
  scanning h := H.scanning h.toScan
  returned n _ _ := H.returned n _

section Moves

variable {P : ∀ ⦃α : Type⦄, Rule α → Prop} {α : Type}
  (hbind : ∀ {α β : Type} {r : Rule α} {k : α → Rule β}, P r → (∀ a, P (k a)) → P (r >>= k))
  (hscan : ∀ {α : Type} {look : Cursor → Except Error (α × Cursor)},
    QuotingScan look → P (scanning look))
  (hmove : ∀ c, P (moveTo c))

include hbind hscan hmove

/-- A property of rules that may set any cursor is handed on to the members of groups. -/
theorem advancing_of_moveTo (hpure : ∀ {α : Type} (a : α), P (pure a : Rule α)) {r : Rule α}
    (h : P (optional r)) : P (advancing r) := by
  refine hbind (hscan quoting_here) fun before => hbind h fun a? => ?_
  cases a? with
  | none => exact hpure none
  | some a =>
    refine hbind (hscan quoting_here) fun after => ?_
    split
    · exact hpure _
    · exact hbind (hmove before) fun _ => hpure none

/-- A property of rules that may set any cursor is one of tokens that are refused late. -/
theorem returned_of_moveTo {n : Nat} {what : Expectation} (h : P (fail (α := α) what)) :
    P (Answer.returned (α := α) n what).act := by
  refine hbind (hscan quoting_here) fun start => hbind ?_ fun _ => hbind (hmove start) fun _ => h
  refine hbind (hscan (quoting_skip n)) fun _ => ?_
  rw [Layout.layout_eq_scanning]
  exact hscan Layout.quoting_pass

end Moves

namespace Handed

variable {P : ∀ ⦃α : Type⦄, Rule α → Prop} (H : Handed P) {α β : Type}

include H

/-! ## Tokens -/

omit H in
/-- A decision does not matter if both sides have the property. -/
theorem either {c : Prop} [Decidable c] {r q : Rule α} (hr : P r) (hq : P q) :
    P (if c then r else q) := by
  split
  · exact hr
  · exact hq

/-- The usual case of a sequence, in which it does not matter what the first rule returns. -/
theorem next {r : Rule α} {k : α → Rule β} (h : P r) (hk : ∀ a, P (k a)) : P (r >>= k) :=
  H.bind h fun a _ => hk a

/-- Looking at the cursor is a scan that passes nothing. -/
theorem cursor : P cursor := H.scanning quoting_here

/-- Passing characters is a scan that finds no error. -/
theorem advance (n : Nat) : P (advance n) := H.scanning (quoting_skip n)

/-- Layout is a scan, and its comments are where it may find an error. -/
theorem layout : P layout := by
  rw [Layout.layout_eq_scanning]
  exact H.scanning Layout.quoting_pass

theorem rest : P rest := H.next H.cursor fun c => H.pure c.rest

theorem position : P position := H.next H.cursor fun c => H.pure c.position

theorem peek? : P peek? := H.next H.cursor fun c => H.pure c.peek?

theorem token (n : Nat) : P (token n) := H.next (H.advance n) fun _ => H.layout

/-- A mark is looked at before it is passed. -/
theorem symbol {c : Char} (h : (Expectation.token (String.singleton c)).isOfGrammar) :
    P (symbol c) := by
  refine H.next H.peek? fun d? => ?_
  cases d? with
  | none => exact H.fail h
  | some d =>
    dsimp only
    split
    · exact H.token 1
    · exact H.fail h

/-- Words, looked up before or after they have been passed. -/
theorem word {what : Expectation} (h : what.isOfGrammar) (f : List Char → Option α) (late : Bool) :
    P (lexical (lookWord what f late)) := by
  have hrefused : P (Answer.refused (α := α) 0 what).act :=
    H.attempt (H.next (H.advance 0) fun _ => H.fail h)
  refine H.next H.rest fun cs => ?_
  rw [lookWord]
  split
  · exact hrefused
  · split
    · exact H.next (H.token _) fun _ => H.pure _
    · split
      · exact H.returned _ h
      · exact hrefused

theorem keyword {name : String} (h : (Expectation.token name).isOfGrammar) : P (keyword name) := by
  rw [keyword_eq]
  exact H.word h _ _

theorem headWord (f : String → Option α) {what : Expectation} (h : what.isOfGrammar) :
    P (headWord f what) := by
  rw [headWord_eq]
  exact H.word h _ _

theorem mnemonicWord : P Grammar.mnemonicWord := by
  rw [mnemonicWord_eq]
  exact H.word rfl _ _

/-- The end of the text is looked for and never passed. -/
theorem endOfInput : P endOfInput := by
  refine H.next H.peek? fun d? => ?_
  cases d? with
  | none => exact H.pure ()
  | some _ => exact H.fail rfl

/-- A note is an attempt that looks at the character behind it. -/
theorem note (σ : Sigil) : P (Grammar.note σ) := by
  refine H.attempt (H.next H.rest fun cs => ?_)
  cases cs with
  | nil => exact H.fail rfl
  | cons c cs =>
    dsimp only
    split
    · refine H.next (H.advance _) fun _ => H.next H.peek? fun d? => ?_
      cases d? with
      | none => exact H.next H.layout fun _ => H.pure _
      | some d =>
        dsimp only
        split
        · exact H.next H.layout fun _ => H.pure _
        · exact H.fail rfl
    · exact H.fail rfl

/-- The digits are known before they are passed. -/
theorem integerLiteral : P Grammar.integerLiteral := by
  refine H.next H.rest fun cs => ?_
  exact either (H.fail rfl) (H.next (H.token _) fun _ => H.pure _)

/-- The body of a string is a scan, between the look at its quote and the layout. -/
theorem stringLiteral : P Grammar.stringLiteral := by
  rw [Grammar.stringLiteral_eq_scanning]
  refine H.next H.peek? fun c? => ?_
  split
  · exact H.next (H.scanning Literal.quoting_passString) fun _ => H.next H.layout fun _ => H.pure _
  · exact H.fail rfl

/-- An odd number of digits is found by a scan of its own. -/
theorem bytesLiteral : P Grammar.bytesLiteral := by
  rw [Grammar.bytesLiteral_eq_scanning]
  refine H.next H.rest fun cs => ?_
  split
  · refine either ?_ (H.fail rfl)
    split
    · exact H.next (H.token _) fun _ => H.pure _
    · refine H.scanning (Grammar.quoting_oddDigits fun ch hch => ?_)
      exact isWordChar_of_isHex (List.mem_takeWhile_imp hch)
  · exact H.fail rfl

/-! ## Shapes of rules -/

/-- The look at the parenthesis changes nothing. -/
theorem unlessOpen {r q : Rule α} (hr : P r) (hq : P q) : P (unlessOpen r q) := by
  refine H.next H.peek? fun d? => ?_
  split
  · exact hr
  · exact hq

theorem parenthesized {r : Rule α} (h : P r) : P (parenthesized r) :=
  H.next (H.symbol rfl) fun _ => H.next h fun _ => H.next (H.symbol rfl) fun _ => H.pure _

theorem enclosed {r : Rule α} (h : P r) : P (enclosed r) :=
  H.next (H.symbol rfl) fun _ => H.next h fun _ => H.next (H.symbol rfl) fun _ => H.pure _

theorem marking {e : Position → Event} (he : ∀ p, (e p).isMark) : P (marking e) :=
  H.next H.position fun p => H.mark (he p)

/-- The event has the place where the rule began. -/
theorem recording {e : Position → α → Event} (he : ∀ p a, (e p a).isMark) {r : Rule α}
    (h : P r) : P (recording e r) :=
  H.next H.position fun p => H.next h fun a => H.next (H.mark (he p a)) fun _ => H.pure a

theorem optional_bind {r : Rule α} {k : Option α → Rule β} (h : P r) (hk : ∀ a, P (k a)) :
    P (Rule.optional r >>= k) :=
  H.next (H.optional h) hk

theorem manyWithin {r : Rule α} (h : P r) (bound : Nat) : P (manyWithin r bound) := by
  -- a bound that is met makes the rule one that the property is asked of
  induction bound with
  | zero => exact H.exhausted
  | succ bound ih =>
    refine H.optional_bind h fun a => ?_
    cases a with
    | none => exact H.pure []
    | some a => exact H.next ih fun _ => H.pure _

theorem many1 {r : Rule α} (h : P r) : P (many1 r) :=
  H.next (H.attempt h) fun _ => H.next H.rest fun _ => H.next (H.manyWithin h _) fun _ => H.pure _

theorem bracedItems {r : Rule α} (h : P r) (bound : Nat) : P (bracedItems r bound) := by
  induction bound with
  | zero => exact H.exhausted
  | succ bound ih =>
    refine H.next h fun a => H.optional_bind (H.symbol rfl) fun semicolon => ?_
    cases semicolon with
    | none => exact H.next (H.symbol rfl) fun _ => H.pure _
    | some _ =>
      refine H.optional_bind (H.symbol rfl) fun brace => ?_
      cases brace with
      | some _ => exact H.pure _
      | none => exact H.next ih fun _ => H.pure _

theorem braced {r : Rule α} (h : P r) : P (braced r) := by
  refine H.attempt (H.next (H.symbol rfl) fun _ => H.optional_bind (H.symbol rfl) fun brace => ?_)
  cases brace with
  | some _ => exact H.pure _
  | none => exact H.next H.rest fun _ => H.bracedItems h _

/-- A whole text is layout, the rule and the end of the text. -/
theorem whole {r : Rule α} (h : P r) : P (Grammar.whole r) :=
  H.next H.layout fun _ => H.next h fun a => H.next H.endOfInput fun _ => H.pure a

/-! ## Groups -/

theorem noteSlot (σ : Sigil) : P (Grammar.noteSlot σ) := by
  refine H.optional_bind (H.note σ) fun n? => ?_
  cases n? with
  | some n => exact H.pure n
  | none => exact H.pure _

theorem slot {σ : Type} {r : Rule α} (h : P r) (put : α → σ → σ) : P (slot r put) :=
  H.next h fun _ => H.pure _

theorem firstAdvancing {rs : List (Rule α)} (h : ∀ r ∈ rs, P r) : P (firstAdvancing rs) := by
  induction rs with
  | nil => exact H.pure none
  | cons r rs ih =>
    have hrs := ih fun q hq => h q (List.mem_cons_of_mem r hq)
    refine H.next (H.advancing (h r List.mem_cons_self)) fun a? => ?_
    cases a? with
    | some a => exact H.pure _
    | none =>
      refine H.next hrs fun found? => ?_
      cases found? with
      | some found => exact H.pure _
      | none => exact H.pure none

/-- The members that are left have the property, as they are some of those that were there. -/
theorem groupWithin {σ : Type} (rounds : Nat) {rs : List (Rule (σ → σ))} (h : ∀ r ∈ rs, P r)
    (gathered : σ) : P (groupWithin rounds rs gathered) := by
  induction rounds generalizing rs gathered with
  | zero => exact H.pure gathered
  | succ rounds ih =>
    refine H.bind (H.firstAdvancing h) fun found? hfound => ?_
    cases found? with
    | none => exact H.pure gathered
    | some found => exact ih (fun r hr => h r ((returns_firstAdvancing hfound).subset hr)) _

theorem group {σ : Type} {rs : List (Rule (σ → σ))} (h : ∀ r ∈ rs, P r) (absent : σ) :
    P (group rs absent) :=
  H.groupWithin _ h absent

theorem typeMember : P Grammar.typeMember := H.slot (H.note _) _

theorem varMember : P Grammar.varMember := H.slot (H.note _) _

theorem fieldMember : P Grammar.fieldMember := H.slot (H.note _) _

theorem otherFieldMember : P Grammar.otherFieldMember := H.slot (H.note _) _

theorem typeVarNotes : P Grammar.typeVarNotes :=
  H.group (by simp [H.typeMember, H.varMember]) _

theorem varFieldNotes : P Grammar.varFieldNotes :=
  H.group (by simp [H.varMember, H.fieldMember]) _

theorem typeVarFieldNotes : P Grammar.typeVarFieldNotes :=
  H.group (by simp [H.typeMember, H.varMember, H.fieldMember]) _

theorem typeVarFieldsNotes : P Grammar.typeVarFieldsNotes :=
  H.group (by simp [H.typeMember, H.varMember, H.fieldMember, H.otherFieldMember]) _

theorem componentNotes : P Grammar.componentNotes :=
  H.group (by simp [H.fieldMember, H.typeMember]) _

theorem nodeNotes (withField : Bool) : P (Grammar.nodeNotes withField) := by
  cases withField with
  | true => exact H.componentNotes
  | false => exact H.next (H.noteSlot _) fun _ => H.pure _

/-- The notes of a macro that pairs up. -/
theorem pairNotes : P (Rule.group
    [Rule.slot (Grammar.note .type) fun t (n : Grammar.PairNotes) => { n with type := t },
      Rule.slot (Grammar.note .var) fun v n => { n with var := v },
      Rule.slot (Rule.many1 (Grammar.note .field)) fun fs n => { n with fields := fs }] {}) :=
  H.group (by simp [H.slot, H.note, H.many1]) _

/-- The notes of a macro that takes a pair apart. -/
theorem leafNotes : P (Rule.group
    [Rule.slot (Rule.many1 (Grammar.note .var)) fun vs (n : Grammar.LeafNotes) =>
        { n with vars := vs },
      Rule.slot (Rule.many1 (Grammar.note .field)) fun fs n => { n with fields := fs }] {}) :=
  H.group (by simp [H.slot, H.note, H.many1]) _

end Handed

/-! ## Names of macros -/

namespace HandedFlat

variable {P : ∀ ⦃α : Type⦄, Rule α → Prop} (H : HandedFlat P) {α : Type}

include H

/-- Letters of names are refused silently. -/
theorem letters (text : String) : P (Grammar.letters text) := by
  refine H.next H.rest fun cs => ?_
  split
  · exact H.advance _
  · exact H.miss

theorem nameEnd : P Grammar.nameEnd := by
  refine H.next H.rest fun cs => ?_
  split
  · exact H.layout
  · exact H.miss

theorem choice (name : α → String) (as : List α) : P (Grammar.choice name as) := by
  induction as with
  | nil => exact H.miss
  | cons a as ih =>
    refine H.next H.rest fun cs => ?_
    split
    · exact H.next (H.advance _) fun _ => H.pure a
    · exact ih

theorem comparisonName (text : String) (name : Comparison → MacroName) :
    P (Grammar.comparisonName text name) :=
  H.next (H.letters text) fun _ => H.next (H.choice _ _) fun _ => H.next H.nameEnd fun _ => H.pure _

theorem plainName (text : String) (name : MacroName) : P (Grammar.plainName text name) :=
  H.next (H.letters text) fun _ => H.next H.nameEnd fun _ => H.pure name

theorem assertedName : P Grammar.assertedName :=
  H.next (H.letters _) fun _ => H.next (H.choice _ _) fun _ => H.next H.nameEnd fun _ => H.pure _

/-- The end of a name behind letters that are counted. -/
theorem lettersEnd (text : String) (name : MacroName) (short : Prop) [Decidable short] :
    P (if short then Rule.miss else do
      Grammar.letters text
      Grammar.nameEnd
      Pure.pure name) := by
  split
  · exact H.miss
  · exact H.plainName text name

/-- Too small a depth is refused before the last letter is looked at. -/
theorem depthName (letter : Char) (name : UInt32 → MacroName) :
    P (Grammar.depthName letter name) :=
  H.next (H.letters _) fun _ => H.next H.rest fun _ => H.next (H.advance _) fun _ =>
    H.lettersEnd _ _ _

theorem pathName (text : String) (least : Nat) (name : List Side → MacroName) :
    P (Grammar.pathName text least name) :=
  H.next (H.letters _) fun _ => H.next H.rest fun _ => H.next (H.advance _) fun _ =>
    H.lettersEnd _ _ _

section Trees

variable {g : Grammar.Knot} (hg : P g.pairTree)

include hg

theorem leftTree : P (Grammar.leftTree g) := by
  refine H.next H.peek? fun c? => ?_
  split
  · exact H.next (H.advance 1) fun _ => H.pure _
  · exact hg

theorem rightTree : P (Grammar.rightTree g) := by
  refine H.next H.peek? fun c? => ?_
  split
  · exact H.next (H.advance 1) fun _ => H.pure _
  · exact hg

/-- The letters of a pair. -/
theorem pairLetters : P (do
    Grammar.letters "P"
    let l ← Grammar.leftTree g
    let r ← Grammar.rightTree g
    Pure.pure (PairTree.node l r)) :=
  H.next (H.letters _) fun _ => H.next (H.leftTree hg) fun _ =>
    H.next (H.rightTree hg) fun _ => H.pure _

/-- Names with trees need the property of the rule for pair trees only. -/
theorem treeName (text : String) (name : PairTree → MacroName) :
    P (Grammar.treeName g text name) :=
  H.next (H.letters text) fun _ => H.next hg fun _ => H.plainName _ _

/-- All readings of names, one by one. -/
theorem macroNames : ∀ name ∈ Grammar.macroNames g, P name := by
  simp only [Grammar.macroNames, List.forall_mem_cons, List.not_mem_nil, false_implies,
    implies_true, and_true, H.comparisonName, H.plainName, H.assertedName, H.depthName,
    H.treeName hg, H.pathName]

end Trees

end HandedFlat

/-! ## The grammar -/

namespace HandedDown

variable {P : ∀ ⦃α : Type⦄, Rule α → Prop} (H : HandedDown P) {α β : Type}

include H

/-- A hereditary property as a relation: the first rule has it, and all that the rule
returns is related to something. -/
def Relation (P : ∀ ⦃α : Type⦄, Rule α → Prop) (_ : Nat) : RuleRelation :=
  fun _ _ V r _ => P r ∧ ∀ a, r.Returns a → ∃ b, V a b

omit H in
/-- Between equal values, all that is asked is that the rule has the property. -/
theorem relation_eq {n : Nat} {r r' : Rule α} (h : P r) : Relation P n Eq r r' :=
  ⟨h, fun a _ => ⟨a, rfl⟩⟩

omit H in
/-- What is read, if anything is, is related to something. -/
theorem rel_option {V : α → β → Prop} {a? : Option α} (h : ∀ a ∈ a?, ∃ b, V a b) :
    ∃ b?, Option.Rel V a? b? := by
  cases a? with
  | none => exact ⟨none, .none⟩
  | some a =>
    obtain ⟨b, hb⟩ := h a rfl
    exact ⟨some b, .some hb⟩

/-- **The grammar respects a property that is handed down.** -/
theorem congruence : Grammar.Congruence (Relation P) (Relation P) fun _ r _ => P r where
  later h := h
  passing h := h
  pure h := ⟨H.pure _, fun a ha => ⟨_, returns_pure ha ▸ h⟩⟩
  bind h hk := by
    have hnext := fun a ha => (h.2 a ha).elim fun b hab => hk a b hab
    refine ⟨H.bind h.1 fun a ha => (hnext a ha).1, fun c hc => ?_⟩
    obtain ⟨a, ha, hc⟩ := Rule.returns_bind hc
    exact (hnext a ha).2 c hc
  passing_bind h hk := by
    have hnext := fun a ha => (h.2 a ha).elim fun b hab => hk a b hab
    refine ⟨H.bind h.1 fun a ha => (hnext a ha).1, fun c hc => ?_⟩
    obtain ⟨a, ha, hc⟩ := Rule.returns_bind hc
    exact (hnext a ha).2 c hc
  optional h :=
    ⟨H.optional h.1, fun _ ha => rel_option fun a ha' => h.2 a (Rule.returns_optional ha a ha')⟩
  attempt h := ⟨H.attempt h.1, fun a ha => h.2 a (Rule.returns_attempt ha)⟩
  nested h := ⟨H.nested h.1, fun a ha => h.2 a (Rule.returns_nested ha)⟩
  advancing h :=
    ⟨H.advancing h.1, fun _ ha => rel_option fun a ha' => h.2 a (Rule.returns_advancing ha a ha')⟩
  note σ := relation_eq (H.note σ)
  headWord f _ hw := relation_eq (H.headWord f hw)
  unlessOpen h hq := by
    refine ⟨H.unlessOpen h.1 hq.1, fun a ha => ?_⟩
    obtain ⟨c?, -, ha⟩ := Rule.returns_bind ha
    split at ha
    · exact h.2 a ha
    · exact hq.2 a ha
  parenthesized h := by
    refine ⟨H.parenthesized h.1, fun a ha => ?_⟩
    obtain ⟨_, -, ha⟩ := Rule.returns_bind ha
    obtain ⟨b, hb, ha⟩ := Rule.returns_bind ha
    obtain ⟨_, -, ha⟩ := Rule.returns_bind ha
    exact Rule.returns_pure ha ▸ h.2 b hb
  fail hw := ⟨H.fail hw, fun a ⟨_, _, _, h⟩ => nomatch h⟩
  miss := ⟨H.miss, fun a ⟨_, _, _, h⟩ => nomatch h⟩
  many1 h := relation_eq (H.many1 h.1)
  braced h := relation_eq (H.braced h.1)
  enclosed h := relation_eq (H.enclosed h.1)
  keyword name := relation_eq (H.keyword name)
  semicolon := relation_eq (H.symbol rfl)
  marking e := relation_eq (H.marking e)
  recording e h := relation_eq (H.recording e h.1)
  mnemonicWord := relation_eq H.mnemonicWord
  integerLiteral := relation_eq H.integerLiteral
  stringLiteral := relation_eq H.stringLiteral
  bytesLiteral := relation_eq H.bytesLiteral
  macroNames {n g g'} h := by
    refine List.forall₂_of_length_eq_of_get rfl fun i hi _ => relation_eq ?_
    exact H.macroNames h _ (List.get_mem _ ⟨i, hi⟩)
  pairTreeRule h := H.nested (H.pairLetters h)

/-- Every rule of the grammar has such a property. -/
theorem related_tied (n calls : Nat) :
    Grammar.Knot.Related (Relation P) (fun _ r _ => P r) n (Grammar.Knot.tied calls)
      (Grammar.Knot.tied calls) := by
  induction calls generalizing n with
  | zero =>
    exact ⟨fun _ => relation_eq H.exhausted, relation_eq H.exhausted, relation_eq H.exhausted,
      relation_eq H.exhausted, H.exhausted⟩
  | succ calls ih => exact H.congruence.next (ih (n - 1)) (ih n).block

/-- The conclusion for any rule made of the rules of the grammar, with any number of calls. -/
theorem tied {rule : Grammar.Knot → Rule α} (hr : Grammar.Respected rule) (calls : Nat) :
    P (rule (Grammar.Knot.tied calls)) :=
  (hr H.congruence (H.related_tied 0 calls)).1

end HandedDown

namespace Hereditary

variable {P : ∀ ⦃α : Type⦄, Rule α → Prop} (H : Hereditary P) {α : Type}

include H

/-- **Every rule of the grammar has a hereditary property.** -/
theorem tied {rule : Grammar.Knot → Rule α} (hr : Grammar.Respected rule) (calls : Nat) :
    P (rule (Grammar.Knot.tied calls)) :=
  H.handedDown.tied hr calls

theorem whole {r : Rule α} (h : P r) : P (Grammar.whole r) := H.handedDown.whole h

end Hereditary

end Michelson
