import Michelson.Proofs.History

/-!
# What the message of an error quotes

Most of a message is fixed wording. What is not are numbers, and characters: a stray
character or the letter of an unknown escape, and the digits of a literal. All of these
stand in the text that was read, and there is one character at most unless they are those
of a word. So a message has no zero character unless the text has one.

* `Error.TellsOnly` says what an error of a reading may quote and list, and
  `Grammar.tellsOnly_run` that it does not quote or list more.
* `Error.TellsOnly.isWorded_message` is what follows for messages, and
  `Error.TellsOnly.zeroFree_message` for the zero character.
-/

namespace Michelson

open Rule

/-! ## Errors quote the text -/

namespace Rule

variable {α β : Type} {text : String}

/-- The rule keeps places, and the errors that it raises quote the text. -/
structure QuotesText (text : String) ⦃α : Type⦄ (r : Rule α) : Prop where
  keeps : KeepsPlaces text r
  raised : ∀ limit s e, s.Placed text → (r limit s).verdict = .halt (.error e) →
    e.Quotes text.toList

/-- The second rule raises its errors further on in the same text. -/
theorem quotesText_bind {r : Rule α} {k : α → Rule β} (h : QuotesText text r)
    (hk : ∀ a, r.Returns a → QuotesText text (k a)) : QuotesText text (r >>= k) := by
  refine ⟨keepsPlaces_bind h.keeps fun a ha => (hk a ha).keeps, fun limit s e hs he => ?_⟩
  have hplaced := (h.keeps limit s hs).state
  rcases hrun : r limit s with ⟨a | _ | stop, t⟩ <;> rw [hrun] at hplaced
  · rw [bind_ok hrun] at he
    exact (hk a ⟨limit, s, t, hrun⟩).raised limit t e hplaced he
  · rw [bind_miss hrun] at he
    cases he
  · rw [bind_halt hrun] at he
    cases he
    exact h.raised limit s e hs (congrArg Reply.verdict hrun)

/-- An optional rule halts because its rule does. -/
theorem optional_halt {r : Rule α} {limit : Option Nat} {s : State} {stop : Stop}
    (h : (optional r limit s).verdict = .halt stop) : (r limit s).verdict = .halt stop := by
  rw [optional] at h
  rcases hrun : r limit s with ⟨_ | _ | _, t⟩ <;> rw [hrun] at h <;> cases h
  rfl

/-- An attempt halts because its rule does. -/
theorem attempt_halt {r : Rule α} {limit : Option Nat} {s : State} {stop : Stop}
    (h : (attempt r limit s).verdict = .halt stop) : (r limit s).verdict = .halt stop := by
  rw [attempt] at h
  rcases hrun : r limit s with ⟨_ | _ | _, t⟩ <;> rw [hrun] at h <;> cases h
  rfl

/-- A member of a group halts because its rule does. -/
theorem advancing_halt {r : Rule α} {limit : Option Nat} {s : State} {stop : Stop}
    (h : (advancing r limit s).verdict = .halt stop) : (r limit s).verdict = .halt stop := by
  rw [advancing, cursor_bind] at h
  rcases hrun : optional r limit s with ⟨a? | _ | stop', t⟩
  · rw [bind_ok hrun] at h
    cases a? with
    | none => cases h
    | some a =>
      dsimp only at h
      rw [cursor_bind] at h
      split at h <;> cases h
  · rw [bind_miss hrun] at h
    cases h
  · rw [bind_halt hrun] at h
    cases h
    exact optional_halt (congrArg Reply.verdict hrun)

/-- A token that is refused late halts because of the layout behind it. -/
theorem returned_halt {n : Nat} {what : Expectation} {limit : Option Nat} {s : State} {stop : Stop}
    (h : ((Answer.returned (α := α) n what).act limit s).verdict = .halt stop) :
    (token n limit s).verdict = .halt stop := by
  rw [Answer.act, cursor_bind] at h
  rcases hrun : token n limit s with ⟨_ | _ | stop', t⟩
  · rw [bind_ok hrun, moveTo_bind] at h
    cases h
  · rw [bind_miss hrun] at h
    cases h
  · rw [bind_halt hrun] at h
    cases h
    rfl

/-- A scan quotes the text further on, which is part of the text. -/
theorem quotesText_scanning {look : Cursor → Except Error (α × Cursor)} (h : QuotingScan look) :
    QuotesText text (scanning look) := by
  refine ⟨keepsPlaces_scanning h.toScan, fun limit s e hs he => ?_⟩
  rw [scanning] at he
  cases hlook : look s.cursor with
  | ok found =>
    rw [hlook] at he
    cases he
  | error e' =>
    rw [hlook] at he
    cases he
    exact (h.quotes hlook).of_ahead hs.cursor

/-- The error about the depth quotes nothing. -/
theorem quotesText_nested {r : Rule α} (h : QuotesText text r) : QuotesText text (nested r) := by
  refine ⟨keepsPlaces_nested h.keeps, fun limit s e hs he => ?_⟩
  cases limit with
  | none => exact h.raised none { s with depth := s.depth + 1 } e (hs.deeper _) he
  | some l =>
    rw [nested_some] at he
    split at he
    · cases he
      exact Error.quotes_of_nil rfl
    · exact h.raised (some l) { s with depth := s.depth + 1 } e (hs.deeper _) he

/-- The error about a comment behind a token quotes nothing. -/
theorem quotesText_token (n : Nat) : QuotesText text (token n) := by
  refine quotesText_bind (quotesText_scanning (quoting_skip n)) fun _ _ => ?_
  rw [Layout.layout_eq_scanning]
  exact quotesText_scanning Layout.quoting_pass

/-- **All errors that rules raise quote the text.** -/
theorem handedDown_quotesText (text : String) : HandedDown (QuotesText text) where
  pure a := ⟨keepsPlaces_pure a, fun _ _ _ _ he => nomatch he⟩
  bind := quotesText_bind
  miss := ⟨(hereditary_keepsPlaces text).miss, fun _ _ _ _ he => nomatch he⟩
  fail _ := ⟨keepsPlaces_fail _, fun _ _ _ _ he => nomatch he⟩
  exhausted := ⟨(hereditary_keepsPlaces text).exhausted, fun _ _ _ _ he => nomatch he⟩
  optional h :=
    ⟨keepsPlaces_optional h.keeps, fun limit s e hs he => h.raised limit s e hs (optional_halt he)⟩
  attempt h :=
    ⟨keepsPlaces_attempt h.keeps, fun limit s e hs he => h.raised limit s e hs (attempt_halt he)⟩
  nested := quotesText_nested
  advancing h :=
    ⟨keepsPlaces_advancing h.keeps,
      fun limit s e hs he => h.raised limit s e hs (advancing_halt he)⟩
  mark _ := ⟨(hereditary_keepsPlaces text).log _, fun _ _ _ _ he => nomatch he⟩
  scanning := quotesText_scanning
  returned n _ _ := ⟨keepsPlaces_returned n _, fun limit s e hs he =>
    (quotesText_token n).raised limit s e hs (returned_halt he)⟩

/-- **All errors that rules raise are terse.** -/
theorem handedDown_terse : HandedDown (Raises fun _ e => e.IsTerse) where
  pure := raises_pure
  bind := raises_bind
  miss _ _ _ he := nomatch he
  fail _ := raises_fail _
  exhausted _ _ _ he := nomatch he
  optional := raises_optional
  attempt := raises_attempt
  nested := raises_nested fun _ _ => Error.isTerse_of_nil rfl
  advancing h := advancing_of_moveTo (fun h hk => raises_bind h fun a _ => hk a)
    (fun h => raises_scanning fun _ _ _ he => h.terse he) raises_moveTo raises_pure
    (raises_optional h)
  mark _ _ _ _ he := nomatch he
  scanning h := raises_scanning fun _ _ _ he => h.terse he
  returned _ _ _ := returned_of_moveTo (fun h hk => raises_bind h fun a _ => hk a)
    (fun h => raises_scanning fun _ _ _ he => h.terse he) raises_moveTo (raises_fail _)

end Rule

/-- The error that is made of a miss quotes a character at most. -/
theorem State.isTerse_error (s : State) : s.error.IsTerse := by
  rw [State.error]
  split
  · rw [Furthest.error]
    split
    · exact Error.isTerse_of_nil rfl
    · split
      · exact Error.isTerse_of_nil rfl
      · split
        · exact Error.isTerse_of_nil rfl
        · exact .inl (Nat.le_refl 1)
  · exact Error.isTerse_of_nil rfl

/-- The error is one of a reading, quotes nothing but the text and characters of words, and
not much of it, and lists expectations of the grammar. -/
structure Error.TellsOnly (text : String) (e : Error) : Prop where
  placed : e.Placed text
  quotes : e.Quotes text.toList
  terse : e.IsTerse
  stated : ∀ expected, e.expected? = some expected → ∀ what ∈ expected, what.isOfGrammar

/-- A stray character is one of the text. -/
theorem Error.ForMiss.quotes {text : String} {p : Position} {before after : List Char}
    {expected : List Expectation} {e : Error} (hp : p.Parts before after text)
    (h : e.ForMiss p after.head? expected) : e.Quotes text.toList := by
  cases h with
  | note => exact quotes_of_nil rfl
  | grammar => exact quotes_of_nil rfl
  | stray c _ hnext =>
    intro ch hch
    obtain rfl := List.mem_singleton.mp hch
    obtain ⟨after', rfl⟩ := List.head?_eq_some_iff.mp hnext
    rw [hp.text_eq]
    exact .inl (List.mem_append_right _ List.mem_cons_self)

namespace Grammar

/-- The error of a reading was raised by a rule or is made of a miss, and both are terse. -/
theorem terse_of_run {α : Type} {rule : Knot → Rule α} (hr : Respected rule)
    {limit : Option Nat} {text : List Char} {e : Error}
    (h : (run rule limit text).result = .error e) : e.IsTerse := by
  have hraises := handedDown_terse.whole (handedDown_terse.tied hr (callsFor text))
  rw [Reply.result] at h
  split at h
  · cases h
  · cases h
    exact State.isTerse_error _
  · rename_i hv
    cases h
    exact hraises limit _ _ hv
  · cases h
    exact State.isTerse_error _

/-- **An error of a reading quotes the text, and nothing else that is not fixed.** -/
theorem tellsOnly_run {α : Type} {rule : Knot → Rule α} (hr : Respected rule)
    (hnotes : ∀ calls, (rule (Knot.tied calls)).NotesMisses) {limit : Option Nat} {text : String}
    {e : Error} (h : (run rule limit text.toList).result = .error e) : e.TellsOnly text := by
  have hhistory := fromHistory_run hr hnotes limit text
  refine ⟨placed_of_run hr h, ?_, terse_of_run hr h,
    fun expected he => (hhistory.stated e expected h he).2.2⟩
  rcases hv : (run rule limit text.toList).verdict with a | _ | (e' | _)
  case ok =>
    rw [Reply.result, hv] at h
    cases h
  case miss =>
    have hcalm := (told_run hr limit text).calm fun e' he' => by
      rw [hv] at he'
      cases he'
    obtain ⟨p, after, ⟨⟨before, hparts⟩, -, -⟩, hmiss⟩ :=
      hhistory.missed e h fun e' he' => hcalm e' (List.mem_reverse.mp he')
    exact hmiss.quotes hparts
  case halt.error =>
    have hquotes := (handedDown_quotesText text).whole
      ((handedDown_quotesText text).tied hr (callsFor text.toList))
    rw [Reply.result, hv] at h
    obtain rfl := Except.error.inj h
    exact hquotes.raised limit _ _ (.initial text) hv
  case halt.outOfFuel => exact absurd hv ((finishes_of_respected hr).ends limit text.toList)

end Grammar

/-! ## Texts without the zero character -/

/-- No character is the zero character. -/
def ZeroFree (cs : List Char) : Prop := ∀ c ∈ cs, c.toNat ≠ 0

instance (cs : List Char) : Decidable (ZeroFree cs) :=
  List.decidableBAll (fun c : Char => c.toNat ≠ 0) cs

@[simp]
theorem zeroFree_nil : ZeroFree [] := nofun

@[simp]
theorem zeroFree_cons {c : Char} {cs : List Char} :
    ZeroFree (c :: cs) ↔ c.toNat ≠ 0 ∧ ZeroFree cs := List.forall_mem_cons

/-- Texts that are joined are free of zeros if both are. -/
@[simp]
theorem zeroFree_append {cs ds : List Char} :
    ZeroFree (cs ++ ds) ↔ ZeroFree cs ∧ ZeroFree ds := List.forall_mem_append

theorem zeroFree_of_isDigit {cs : List Char} (h : cs.all Char.isDigit = true) : ZeroFree cs := by
  intro c hc hzero
  have hdigit := List.all_eq_true.mp h c hc
  rw [← Char.ofNat_toNat c, hzero] at hdigit
  cases hdigit

/-- Numbers are written with digits, and zero is another character than the digit. -/
@[simp]
theorem zeroFree_decimal (n : Nat) : ZeroFree (Numeral.decimal n) :=
  zeroFree_of_isDigit (Numeral.isDigit_decimal n)

/-! ## What messages are made of -/

/-- Whether a character may stand in fixed wording: the printable ones of ASCII may. -/
def isWording (c : Char) : Bool := 0x20 ≤ c.toNat && c.toNat < 0x7F

/-- The text is made of fixed wording, numbers and quoted characters. -/
def IsWorded (quoted cs : List Char) : Prop := ∀ c ∈ cs, isWording c = true ∨ c ∈ quoted

section Worded

variable {quoted : List Char}

@[simp]
theorem isWorded_nil : IsWorded quoted [] := nofun

@[simp]
theorem isWorded_cons {c : Char} {cs : List Char} :
    IsWorded quoted (c :: cs) ↔ (isWording c = true ∨ c ∈ quoted) ∧ IsWorded quoted cs :=
  List.forall_mem_cons

/-- Texts that are joined are worded if both are. -/
@[simp]
theorem isWorded_append {cs ds : List Char} :
    IsWorded quoted (cs ++ ds) ↔ IsWorded quoted cs ∧ IsWorded quoted ds := List.forall_mem_append

/-- Fixed wording quotes nothing. -/
theorem isWorded_of_all {cs : List Char} (h : cs.all isWording = true) : IsWorded quoted cs :=
  fun c hc => .inl (List.all_eq_true.mp h c hc)

theorem isWorded_intercalate {gap : List Char} (hgap : IsWorded quoted gap)
    {parts : List (List Char)} (h : ∀ part ∈ parts, IsWorded quoted part) :
    IsWorded quoted (gap.intercalate parts) := by
  -- the gap stands in front of each part but the first
  induction parts with
  | nil => exact isWorded_nil
  | cons part parts ih =>
    obtain ⟨hpart, hparts⟩ := List.forall_mem_cons.mp h
    cases parts with
    | nil => simpa using hpart
    | cons next parts =>
      rw [List.intercalate_cons_cons, isWorded_append, isWorded_append]
      exact ⟨⟨hpart, hgap⟩, ih hparts⟩

/-- Digits are printable. -/
@[simp]
theorem isWorded_decimal (n : Nat) : IsWorded quoted (Numeral.decimal n) := by
  intro c hc
  have hdigit := isDigit_bounds (List.all_eq_true.mp (Numeral.isDigit_decimal n) c hc)
  refine .inl ?_
  rw [isWording, Bool.and_eq_true, decide_eq_true_eq, decide_eq_true_eq]
  omega

@[simp]
theorem Position.isWorded_render (p : Position) : IsWorded quoted p.render.toList := by
  have hcolon : isWording ':' = true := by decide
  simp [render, hcolon]

end Worded

/-- A fault that quotes a character quotes it between fixed words. -/
theorem LexicalFault.isWorded_describe (fault : LexicalFault) :
    IsWorded fault.quoted fault.describe.toList := by
  cases fault with
  | strayCharacter c => simp [describe, quoted, isWording]
  | unknownEscape c => simp [describe, quoted, isWording]
  | noSuchCharacter code => simp [describe, isWording]
  | stated text => exact fun c hc => .inr hc
  | _ => exact isWorded_of_all (by decide)

theorem LiteralFault.isWorded_describe (fault : LiteralFault) :
    IsWorded fault.quoted fault.describe.toList := by
  cases fault with
  | oddHexDigits literal =>
    have hliteral : IsWorded literal.toList literal.toList := fun c hc => .inr hc
    simp [describe, quoted, isWording, hliteral]
  | stated text => exact fun c hc => .inr hc

/-- The grammar names a few tokens, and all descriptions are fixed. -/
theorem Expectation.isWorded_describe {quoted : List Char} {what : Expectation}
    (h : what.isOfGrammar) : IsWorded quoted what.describe.toList := by
  refine isWorded_of_all ?_
  cases what with
  | token text =>
    have hmem : text ∈ ["\x7b", "\x7d", "(", ")", ";", "Elt", "parameter", "storage", "code"] := by
      simpa [isOfGrammar] using h
    simp only [List.mem_cons, List.not_mem_nil, or_false] at hmem
    rcases hmem with rfl | rfl | rfl | rfl | rfl | rfl | rfl | rfl | rfl <;> decide
  | note sigil => cases sigil <;> decide
  | stated text => cases h
  | _ => decide

namespace Error

/-- The list of expectations is made of their descriptions, with commas in between. -/
theorem isWorded_listed {quoted : List Char} {expected : List Expectation}
    (h : ∀ what ∈ expected, what.isOfGrammar) : IsWorded quoted (listed expected).toList := by
  rw [listed, String.toList_intercalate]
  refine isWorded_intercalate (isWorded_of_all (by decide)) fun part hpart => ?_
  obtain ⟨shown, hshown, rfl⟩ := List.mem_map.mp hpart
  obtain ⟨what, hwhat, rfl⟩ := List.mem_map.mp hshown
  exact Expectation.isWorded_describe (h what hwhat)

/-- **Messages are worded.** -/
theorem TellsOnly.isWorded_message {text : String} {e : Error} (h : e.TellsOnly text) :
    IsWorded e.quoted e.message.toList := by
  have hkind := h.placed.kind
  cases e with
  | lexical p fault =>
    have hfault := fault.isWorded_describe
    simp [message, Error.quoted, isWording, hfault]
  | literal p fault =>
    have hfault := fault.isWorded_describe
    simp [message, Error.quoted, isWording, hfault]
  | grammar p expected | note p expected =>
    have hlisted : IsWorded [] (listed expected).toList := isWorded_listed (h.stated expected rfl)
    simp [message, Error.quoted, isWording, hlisted]
  | depth p limit => simp [message, isWording]
  | options detail => simp [kind] at hkind
  | encoding detail => simp [kind] at hkind

/-- What a text without zeros lets an error quote has none. -/
theorem Quotes.zeroFree {text : List Char} {e : Error} (h : e.Quotes text) (ht : ZeroFree text) :
    ZeroFree e.quoted := by
  intro c hc
  rcases h c hc with hc | hc
  · exact ht c hc
  · have hbounds := isWordChar_bounds hc
    omega

/-- **Messages are free of zeros** if the text is. -/
theorem TellsOnly.zeroFree_message {text : String} {e : Error} (h : e.TellsOnly text)
    (ht : ZeroFree text.toList) : ZeroFree e.message.toList := by
  intro c hc
  rcases h.isWorded_message c hc with hword | hquoted
  · rw [isWording, Bool.and_eq_true, decide_eq_true_eq] at hword
    omega
  · exact h.quotes.zeroFree ht c hquoted

end Error

end Michelson
