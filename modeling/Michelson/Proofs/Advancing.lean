import Michelson.Proofs.Frames
import Michelson.Proofs.Track

/-!
# Rules go on in the text

No rule of the grammar ends in front of the place where it began, and the rules that
begin at a token of their own pass some text whenever they read something. The offset of
the cursor tells both.

Going on is a hereditary property. Passing text is not, since a rule may read nothing;
it is handed on by the rule that comes first in a sequence, and by alternatives if all
of them pass text.

* `Onward` and `Advances` are the two properties, and `hereditary_onward` is the first
  of them for all rules.
* `advances_lexical` says that tokens pass text, and `advances_braced` that lists in
  braces do.
* `Knot.advancing_tied` is the conclusion for the rules of the grammar.
-/

namespace Michelson

open Rule

/-! ## Offsets -/

/-- No text has a negative length. -/
theorem Position.offset_le_after (p : Position) (cs : List Char) : p.offset ≤ (p.after cs).offset := by
  rcases eq_or_ne cs [] with rfl | hne
  · exact le_rfl
  · exact (p.offset_lt_after hne).le

namespace Cursor

variable {c c' : Cursor}

/-- Places further on have no smaller offset. -/
theorem Ahead.offset_le (h : c.Ahead c') : c.position.offset ≤ c'.position.offset := by
  obtain ⟨passed, -, hpos⟩ := h
  rw [hpos]
  exact c.position.offset_le_after passed

/-- Passing characters that are there moves the cursor on. -/
theorem offset_lt_skip {n : Nat} (hn : 0 < n) (hrest : c.rest ≠ []) :
    c.position.offset < (c.skip n).position.offset := by
  rw [skip_eq]
  refine c.position.offset_lt_after fun hnone => ?_
  rcases List.take_eq_nil_iff.mp hnone with rfl | hnil
  · exact absurd hn (Nat.lt_irrefl 0)
  · exact hrest hnil

end Cursor

namespace Rule

variable {α β : Type}

/-- Where the rule reads something, it ends no earlier in the text than it began. -/
def Onward ⦃α : Type⦄ (r : Rule α) : Prop :=
  ∀ limit s a t, r limit s = ⟨.ok a, t⟩ → s.cursor.position.offset ≤ t.cursor.position.offset

/-- Where the rule reads something, it passes some text. -/
def Advances ⦃α : Type⦄ (r : Rule α) : Prop :=
  ∀ limit s a t, r limit s = ⟨.ok a, t⟩ → s.cursor.position.offset < t.cursor.position.offset

/-- To pass text is to go on. -/
theorem Advances.onward {r : Rule α} (h : Advances r) : Onward r :=
  fun limit s a t hrun => (h limit s a t hrun).le

/-- Inversion for optional rules. -/
theorem optional_eq_ok {r : Rule α} {limit : Option Nat} {s t : State} {a? : Option α}
    (h : optional r limit s = ⟨.ok a?, t⟩) :
    (∃ a, a? = some a ∧ r limit s = ⟨.ok a, t⟩) ∨ a? = none ∧ t.cursor = s.cursor := by
  rw [optional] at h
  rcases hrun : r limit s with ⟨a | _ | stop, u⟩ <;> rw [hrun] at h <;> cases h
  · exact .inl ⟨a, rfl, rfl⟩
  · exact .inr ⟨rfl, rfl⟩

/-- A nested rule reads what the rule reads one level deeper, and ends in the same
place. -/
theorem nested_cursor {r : Rule α} {limit : Option Nat} {s t : State} {a : α}
    (h : nested r limit s = ⟨.ok a, t⟩) :
    ∃ u, r limit { s with depth := s.depth + 1 } = ⟨.ok a, u⟩ ∧ u.cursor = t.cursor := by
  rcases nested_cases r limit s with hrun | ⟨e, hrun⟩ <;> rw [hrun] at h
  · rw [deeper] at h
    rcases hdeep : r limit { s with depth := s.depth + 1 } with ⟨v, u⟩
    rw [hdeep] at h
    cases h
    exact ⟨u, rfl, rfl⟩
  · cases h

/-! ## Rules that go on -/

theorem onward_pure (a : α) : Onward (pure a : Rule α) := by
  intro limit s b t h
  cases h
  exact le_rfl

/-- The second rule of a sequence goes on from where the first has ended. -/
theorem onward_bind {r : Rule α} {k : α → Rule β} (h : Onward r)
    (hk : ∀ a, r.Returns a → Onward (k a)) : Onward (r >>= k) := by
  intro limit s b u hrun
  obtain ⟨a, t, hr, hka⟩ := bind_eq_ok hrun
  exact (h limit s a t hr).trans (hk a ⟨limit, s, t, hr⟩ limit t b u hka)

/-- Where nothing is read, the cursor is where it was. -/
theorem onward_optional {r : Rule α} (h : Onward r) : Onward (optional r) := by
  intro limit s a? t hrun
  rcases optional_eq_ok hrun with ⟨a, -, hr⟩ | ⟨-, hc⟩
  · exact h limit s a t hr
  · exact (congrArg (·.position.offset) hc).ge

theorem onward_nested {r : Rule α} (h : Onward r) : Onward (nested r) := by
  intro limit s a t hrun
  obtain ⟨u, hr, hu⟩ := nested_cursor hrun
  exact (h limit { s with depth := s.depth + 1 } a u hr).trans_eq
    (congrArg (·.position.offset) hu)

/-- A scan never goes back. -/
theorem onward_scanning {look : Cursor → Except Error (α × Cursor)} (h : Scan look) :
    Onward (scanning look) := by
  intro limit s a t hrun
  rw [scanning] at hrun
  cases hlook : look s.cursor with
  | ok found =>
    rw [hlook] at hrun
    cases hrun
    exact (h.ahead hlook).offset_le
  | error e =>
    rw [hlook] at hrun
    cases hrun

/-- A member of a group goes on, or gives the cursor back. -/
theorem onward_advancing {r : Rule α} (h : Onward r) : Onward (advancing r) := by
  intro limit s b? t hrun
  rw [advancing, cursor_bind] at hrun
  obtain ⟨a?, u, hopt, hrun⟩ := bind_eq_ok hrun
  have hle := onward_optional h limit s a? u hopt
  cases a? with
  | none =>
    cases hrun
    exact hle
  | some a =>
    dsimp only at hrun
    rw [cursor_bind] at hrun
    split at hrun
    · cases hrun
      exact hle
    · cases hrun
      exact le_rfl

/-- **No rule goes back.** -/
theorem hereditary_onward : Hereditary Onward where
  pure := onward_pure
  bind := onward_bind
  miss _ _ _ _ h := nomatch h
  fail _ _ _ _ _ h := nomatch h
  exhausted _ _ _ _ h := nomatch h
  optional := onward_optional
  attempt h limit s a t hrun := h limit s a t (attempt_eq_ok hrun)
  nested := onward_nested
  advancing := onward_advancing
  log _ _ _ _ _ h := by
    cases h
    exact le_rfl
  scanning := onward_scanning
  returned n what limit s a t h := by
    obtain ⟨m, hm⟩ := Answer.returns_act ⟨limit, s, t, h⟩
    cases hm

/-- Going on is asked of rules without a look at what they expect or note down. -/
theorem handedDown_onward : HandedDown Onward := hereditary_onward.handedDown

/-! ## Rules that pass text -/

/-- The first rule of a sequence passes text for all of it. -/
theorem advances_bind {r : Rule α} {k : α → Rule β} (h : Advances r) (hk : ∀ a, Onward (k a)) :
    Advances (r >>= k) := by
  intro limit s b u hrun
  obtain ⟨a, t, hr, hka⟩ := bind_eq_ok hrun
  exact (h limit s a t hr).trans_le (hk a limit t b u hka)

/-- A later rule of a sequence passes text for all of it. -/
theorem advances_after {r : Rule α} {k : α → Rule β} (h : Onward r) (hk : ∀ a, Advances (k a)) :
    Advances (r >>= k) := by
  intro limit s b u hrun
  obtain ⟨a, t, hr, hka⟩ := bind_eq_ok hrun
  exact (h limit s a t hr).trans_lt (hk a limit t b u hka)

theorem advances_miss : Advances (miss (α := α)) := fun _ _ _ _ h => nomatch h

/-- A rule that reads nothing passes text whenever it reads something. -/
theorem advances_fail (what : Expectation) : Advances (fail (α := α) what) :=
  fun _ _ _ _ h => nomatch h

theorem advances_exhausted : Advances (exhausted (α := α)) := fun _ _ _ _ h => nomatch h

theorem advances_attempt {r : Rule α} (h : Advances r) : Advances (attempt r) :=
  fun limit s a t hrun => h limit s a t (attempt_eq_ok hrun)

/-- The depth has no offset. -/
theorem advances_nested {r : Rule α} (h : Advances r) : Advances (nested r) := by
  intro limit s a t hrun
  obtain ⟨u, hr, hu⟩ := nested_cursor hrun
  exact (h limit { s with depth := s.depth + 1 } a u hr).trans_eq
    (congrArg (·.position.offset) hu)

/-- Alternatives pass text if each of them does. -/
theorem advances_firstOf {last : Rule α} (hlast : Advances last) {rs : List (Rule α)}
    (h : ∀ r ∈ rs, Advances r) : Advances (firstOf last rs) := by
  induction rs with
  | nil => exact hlast
  | cons r rs ih =>
    obtain ⟨hr, hrs⟩ := List.forall_mem_cons.mp h
    intro limit s a u hrun
    obtain ⟨a?, t, hopt, hrun⟩ := bind_eq_ok hrun
    rcases optional_eq_ok hopt with ⟨b, rfl, hb⟩ | ⟨rfl, hc⟩
    · cases hrun
      exact hr limit s a _ hb
    · rw [← hc]
      exact ih hrs limit t a u hrun

/-- Whichever way is taken, some text is passed. -/
theorem advances_unlessOpen {r q : Rule α} (hr : Advances r) (hq : Advances q) :
    Advances (unlessOpen r q) := by
  intro limit s a t hrun
  rw [unlessOpen_run] at hrun
  split at hrun
  · exact hr limit s a t hrun
  · exact hq limit s a t hrun

/-! ### Tokens -/

section Lexical

variable {look : List Char → Answer α} {table : Option Token → Reading α}

/-- **Tokens have characters.** A lexical rule passes what it takes. -/
theorem advances_lexical (h : Lexical look table) : Advances (lexical look) := by
  intro limit s a t hrun
  rw [lexical_run] at hrun
  obtain ⟨n, hlook⟩ := Answer.returns_act ⟨limit, s, t, hrun⟩
  obtain ⟨token, tail, hrest, rfl, hv, -⟩ := h.sound hlook
  have hne := Token.text_ne_nil hv
  rw [hlook, Answer.act, Rule.token, bind_assoc, advance_bind] at hrun
  have honward : Onward (layout >>= fun _ => (pure a : Rule α)) :=
    onward_bind handedDown_onward.layout fun _ _ => onward_pure a
  refine (Cursor.offset_lt_skip (List.length_pos_of_ne_nil hne) ?_).trans_le
    (honward limit _ a t hrun)
  rw [hrest]
  exact List.append_ne_nil_of_left_ne_nil hne tail

end Lexical

/-- A mark is a token. -/
theorem advances_symbol {c : Char} (hc : c ∈ Token.marks) : Advances (symbol c) := by
  rw [symbol_eq]
  exact advances_lexical (lexical_symbol hc)

theorem advances_headWord (f : String → Option α) (what : Expectation) :
    Advances (headWord f what) := by
  rw [headWord_eq]
  exact advances_lexical (lexical_word _ _ _)

/-- The parenthesis in front is a token. -/
theorem advances_parenthesized {r : Rule α} (h : Onward r) : Advances (parenthesized r) :=
  advances_bind (advances_symbol (by decide)) fun _ =>
    handedDown_onward.next h fun _ =>
      handedDown_onward.next (advances_symbol (by decide)).onward fun _ => onward_pure _

/-! ### Lists -/

/-- A list in braces passes its opening brace. -/
theorem advances_braced {item : Rule α} (h : Onward item) : Advances (braced item) := by
  have H := handedDown_onward
  refine advances_attempt (advances_bind (advances_symbol (by decide)) fun _ => ?_)
  refine H.optional_bind (advances_symbol (by decide)).onward fun brace? => ?_
  cases brace? with
  | some _ => exact onward_pure []
  | none => exact H.next H.rest fun _ => H.bracedItems h _

/-- Of several items the first passes text for all. -/
theorem advances_many1 {item : Rule α} (h : Advances item) : Advances (many1 item) := by
  have H := handedDown_onward
  refine advances_bind (advances_attempt h) fun _ => H.next H.rest fun _ => ?_
  exact H.next (H.manyWithin h.onward _) fun _ => onward_pure _

end Rule

/-! ## The rules of the grammar -/

namespace Grammar

/-- The rules of a knot pass text where they read something. -/
structure Knot.Advancing (g : Knot) : Prop where
  type (withField : Bool) : Advances (g.type withField)
  comparable : Advances g.comparable
  value : Advances g.value
  block : Advances g.block
  pairTree : Advances g.pairTree

/-- The rules of a knot go on. -/
abbrev Knot.Onward (g : Knot) : Prop :=
  Knot.Related (HandedDown.Relation Rule.Onward) (fun _ r _ => Rule.Onward r) 0 g g

theorem advances_note (σ : Sigil) : Advances (note σ) := by
  rw [note_eq]
  exact advances_lexical (lexical_note σ)

/-- Letters are passed if there are any to be passed. -/
theorem advances_letters {text : String} (h : text ≠ "") : Advances (letters text) := by
  intro limit s a t hrun
  rw [letters, rest_bind] at hrun
  split at hrun
  · rename_i hstarts
    cases hrun
    have hne : text.toList ≠ [] := fun hnil => h (String.toList_eq_nil_iff.mp hnil)
    refine Cursor.offset_lt_skip ?_ fun hnil => hne ?_
    · rw [← String.length_toList]
      exact List.length_pos_of_ne_nil hne
    · rw [startsWith, hnil, List.isPrefixOf_iff_prefix] at hstarts
      exact List.prefix_nil.mp hstarts
  · cases hrun

/-- Some letters in front of a name pass text for all of it. -/
theorem advances_plainName {text : String} (h : text ≠ "") (name : MacroName) :
    Advances (plainName text name) :=
  advances_bind (advances_letters h) fun _ =>
    handedDown_onward.next handedDown_onward.nameEnd fun _ => onward_pure _

/-- A name begins with letters of its own. -/
theorem advances_comparisonName {text : String} (h : text ≠ "") (name : Comparison → MacroName) :
    Advances (comparisonName text name) :=
  have H := handedDown_onward
  advances_bind (advances_letters h) fun _ =>
    H.next (H.choice _ _) fun _ => H.next H.nameEnd fun _ => onward_pure _

theorem advances_assertedName : Advances assertedName :=
  have H := handedDown_onward
  advances_bind (advances_letters (by decide)) fun _ =>
    H.next (H.choice _ _) fun _ => H.next H.nameEnd fun _ => onward_pure _

theorem advances_depthName (letter : Char) (name : UInt32 → MacroName) :
    Advances (depthName letter name) :=
  have H := handedDown_onward
  advances_bind (advances_letters (by decide)) fun _ =>
    H.next H.rest fun _ => H.next (H.advance _) fun _ => H.lettersEnd _ _ _

theorem advances_pathName {text : String} (h : text ≠ "") (least : Nat)
    (name : List Side → MacroName) : Advances (pathName text least name) :=
  have H := handedDown_onward
  advances_bind (advances_letters h) fun _ =>
    H.next H.rest fun _ => H.next (H.advance _) fun _ => H.lettersEnd _ _ _

/-- The name of a pair has no letters in front; the pair tree itself passes some. -/
theorem advances_treeName {g : Knot} (hg : Advances g.pairTree) (text : String)
    (name : PairTree → MacroName) : Advances (treeName g text name) :=
  advances_after (handedDown_onward.letters text) fun _ =>
    advances_bind hg fun _ => (advances_plainName (by decide) _).onward

/-- All readings of names pass text, one by one. -/
theorem advances_macroNames {g : Knot} (hg : Advances g.pairTree) :
    ∀ name ∈ macroNames g, Advances name := by
  simp only [macroNames, List.forall_mem_cons, List.not_mem_nil, false_implies, implies_true,
    and_true, advances_comparisonName, advances_plainName, advances_assertedName,
    advances_depthName, advances_treeName hg, advances_pathName, ne_eq, String.reduceEq,
    not_false_eq_true]

section Rules

variable {g : Knot} (ho : g.Onward)

include ho

/-- A type begins with a parenthesis or a word. -/
theorem advances_typeRule (withField : Bool) : Advances (typeRule g withField) := by
  have C := handedDown_onward.congruence
  rw [typeRule_eq]
  refine advances_nested (advances_attempt (advances_unlessOpen
    (advances_parenthesized (ho.type withField).1)
    (advances_bind (advances_headWord _ _) fun head => ?_)))
  exact (C.bind_eq (C.nodeNotes withField) fun notes =>
    C.bind_eq (C.components ho.type ho.comparable notes.type head) fun t =>
      C.pure (n := 0) (rfl : (notes.field, t) = _)).1

theorem advances_comparableRule : Advances (comparableRule g) := by
  have H := handedDown_onward
  rw [comparableRule_eq]
  exact advances_nested (advances_attempt (advances_unlessOpen
    (advances_parenthesized ho.comparable.1)
    (advances_bind (advances_headWord _ _) fun _ =>
      H.next (H.noteSlot .type) fun _ => onward_pure _)))

theorem advances_dataWord : Advances (dataWord g) := by
  have C := handedDown_onward.congruence
  rw [dataWord_eq]
  exact advances_bind (advances_headWord _ _) fun head => (C.dataParts ho.value head).1

/-- A map begins with a brace. -/
theorem advances_mapLiteral : Advances (mapLiteral g) := by
  have C := handedDown_onward.congruence
  refine advances_bind (advances_braced (C.entry ho.value).1) fun entries => ?_
  cases entries with
  | nil => exact advances_miss.onward
  | cons => exact onward_pure _

/-- The readings of a value all pass text; the last of them is a block. -/
theorem advances_plainValue (hb : Advances g.block) : Advances (plainValue g) := by
  have hcode : Advances (codeLiteral g) := advances_bind hb fun _ => onward_pure _
  have hseq : Advances (sequenceLiteral g) :=
    advances_bind (advances_braced ho.value.1) fun _ => onward_pure _
  refine advances_firstOf hcode ?_
  simp only [List.forall_mem_cons, List.not_mem_nil, false_implies, implies_true, and_true]
  exact ⟨integerLiteral_eq ▸ advances_lexical lexical_integer,
    stringLiteral_eq ▸ advances_lexical lexical_string,
    bytesLiteral_eq ▸ advances_lexical lexical_bytes, advances_dataWord ho,
    advances_mapLiteral ho, hseq⟩

theorem advances_valueRule (hb : Advances g.block) : Advances (valueRule g) := by
  rw [valueRule_eq]
  exact advances_nested (advances_attempt (advances_unlessOpen
    (advances_parenthesized ho.value.1) (advances_plainValue ho hb)))

/-- A block begins with a brace, behind an event that is noted down. -/
theorem advances_blockRule : Advances (blockRule g) := by
  have H := handedDown_onward
  have C := H.congruence
  rw [blockRule_eq]
  exact advances_nested (advances_after (H.marking fun _ => rfl) fun _ =>
    advances_braced (C.step ho).1)

theorem advances_pairTreeRule : Advances (pairTreeRule g) := by
  have H := handedDown_onward
  exact advances_nested (advances_bind (advances_letters (by decide)) fun _ =>
    H.next (H.leftTree ho.pairTree) fun _ => H.next (H.rightTree ho.pairTree) fun _ =>
      onward_pure _)

/-- The mnemonic is a token. -/
theorem advances_instruction : Advances (instruction g) := by
  have C := handedDown_onward.congruence
  rw [instruction_eq, mnemonicWord_eq]
  exact advances_attempt (advances_bind (advances_lexical (lexical_word _ _ _)) fun head =>
    (C.arguments ho head).1)

/-- Each of the names of macros has letters. -/
theorem advances_macroRule (ht : Advances g.pairTree) : Advances (macroRule g) := by
  have H := handedDown_onward
  have C := H.congruence
  rw [macroRule_eq]
  refine advances_after H.position fun p => advances_bind (advances_firstOf (advances_fail _) ?_)
    fun m => H.next (H.mark rfl) fun _ => onward_pure m
  rintro r hr
  obtain ⟨name, hname, rfl⟩ := List.mem_map.mp hr
  exact advances_bind (advances_macroNames ht name hname) fun n => (C.macroArguments ho n).1

/-- A step begins like a block, an instruction or a macro. -/
theorem advances_step (hb : Advances g.block) (ht : Advances g.pairTree) : Advances (step g) := by
  have hblock : Advances (nestedBlock g) := advances_bind hb fun _ => onward_pure _
  have hinstruction : Advances (instructionStep g) :=
    advances_bind (advances_instruction ho) fun _ => onward_pure _
  have hmacro : Advances (macroStep g) :=
    advances_bind (advances_macroRule ho ht) fun _ => onward_pure _
  refine advances_nested (advances_firstOf hblock ?_)
  simp only [List.forall_mem_cons, List.not_mem_nil, false_implies, implies_true, and_true]
  exact ⟨hinstruction, hmacro⟩

/-- Knots that go on pass text when they are tied once more. -/
theorem Knot.advancing_next (hb : Advances g.block) : g.next.Advancing where
  type := advances_typeRule ho
  comparable := advances_comparableRule ho
  value := advances_valueRule ho hb
  block := advances_blockRule ho
  pairTree := advances_pairTreeRule ho

end Rules

/-- **The rules of the grammar pass text where they read something.** -/
theorem Knot.advancing_tied (calls : Nat) : (Knot.tied calls).Advancing := by
  induction calls with
  | zero =>
    exact ⟨fun _ => advances_exhausted, advances_exhausted, advances_exhausted,
      advances_exhausted, advances_exhausted⟩
  | succ calls ih =>
    exact Knot.advancing_next (handedDown_onward.related_tied 0 calls) ih.block

end Grammar

end Michelson
