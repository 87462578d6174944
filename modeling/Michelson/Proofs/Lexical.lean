import Mathlib.Data.Bool.AllAny
import Michelson.Proofs.Lexeme
import Michelson.Proofs.Rule

/-!
# Lexical rules

A lexical rule looks at the text at the cursor and settles from it alone whether
it takes a token, misses or halts. `Answer` is what it settles on, and `lexical`
runs it. On a text that is cut into lexemes the answer depends on the next token
only; `Lexical` says so, with the table of what the rule makes of each token.

The rules for symbols, words, notes and literals are lexical.
-/

namespace Michelson

/-! ## Answers -/

/-- What a lexical rule makes of the text at the cursor. -/
inductive Answer (α : Type) where
  /-- a token of some length is there -/
  | taken (length : Nat) (value : α)
  | missed
  /-- something else was expected, some characters further on -/
  | refused (skip : Nat) (what : Expectation)
  /-- a token is there, but only after it has been passed is it refused -/
  | returned (length : Nat) (what : Expectation)
  | stopped (error : Position → Error)

/-- What a lexical rule makes of a token. -/
inductive Reading (α : Type) where
  | taken (value : α)
  | missed
  | refused (what : Expectation)
  | stopped (kind : String)

namespace Answer

open Rule

variable {α : Type}

/-- The rule that acts on an answer. -/
def act : Answer α → Rule α
  | taken length a => do
    token length
    pure a
  | missed => miss
  | refused skip what =>
    attempt do
      advance skip
      fail what
  | returned length what => do
    let start ← cursor
    token length
    moveTo start
    fail what
  | stopped e => do
    let p ← position
    raise (e p)

theorem act_taken_unit (length : Nat) : (taken length ()).act = token length := bind_pure_unit

/-- An answer to a text agrees with the reading of a token of some length. -/
def Shows (length : Nat) : Answer α → Reading α → Prop
  | taken n a, .taken b => n = length ∧ a = b
  | missed, .missed => True
  | refused skip what, .refused what' => skip = 0 ∧ what = what'
  | returned n what, .refused what' => n = length ∧ what = what'
  | stopped e, .stopped kind => ∀ p, (e p).kind = kind ∧ (e p).expected? = none
  | _, _ => False

end Answer

namespace Rule

variable {α : Type}

/-- The rule that acts on what `look` makes of the text at the cursor. -/
def lexical (look : List Char → Answer α) : Rule α := do
  let cs ← rest
  (look cs).act

/-- A lexical rule looks at the text once, and does what the answer says. -/
theorem lexical_run (look : List Char → Answer α) (limit : Option Nat) (s : State) :
    lexical look limit s = (look s.cursor.rest).act limit s := rfl

end Rule

/-- What a lexical rule makes of a text is what its table says of the token at the
front, and it takes nothing but tokens. -/
structure Lexical {α : Type} (look : List Char → Answer α) (table : Option Token → Reading α) :
    Prop where
  shows {t : Token} {tail : List Char} : t.isValid = true → t.endsBefore tail.head? = true →
    (look (t.text ++ tail)).Shows t.text.length (table (some t))
  atEnd : (look []).Shows 0 (table none)
  sound {cs : List Char} {n : Nat} {a : α} : look cs = .taken n a →
    ∃ (t : Token) (tail : List Char), cs = t.text ++ tail ∧ n = t.text.length ∧ t.isValid = true ∧
      t.endsBefore tail.head? = true

/-! ## Symbols -/

namespace Token

/-- The characters that are tokens of their own. -/
def marks : List Char := ['{', '}', '(', ')', ';']

/-- The word that a token is. -/
def letters? : Token → Option (List Char)
  | word letters => some letters
  | _ => none

/-- Whether a token of this kind may begin with a character. -/
def mayStart (c : Char) : Token → Bool
  | word _ => c.isAlpha
  | integer _ _ => c == '-' || c.isDigit
  | bytes _ => c == '0'
  | string _ => c == '"'
  | note σ _ => c == σ.char
  | mark d => c == d && c ∈ marks

/-- A token begins with a character that tokens of its kind begin with. -/
theorem mayStart_of_text {t : Token} {c : Char} {cs : List Char} (hv : t.isValid = true)
    (h : t.text = c :: cs) : t.mayStart c = true := by
  cases t with
  | word letters =>
    obtain ⟨d, ds, rfl, hd, -⟩ := isValid_word.mp hv
    obtain ⟨rfl, -⟩ := List.cons.inj h
    exact hd
  | integer negative digits =>
    simp only [isValid, Bool.and_eq_true, Bool.not_eq_true'] at hv
    cases negative with
    | true =>
      obtain ⟨rfl, -⟩ := List.cons.inj h
      rfl
    | false =>
      obtain rfl : digits = c :: cs := h
      simp [mayStart, List.all_eq_true.mp hv.2 c List.mem_cons_self]
  | bytes digits =>
    obtain ⟨rfl, -⟩ := List.cons.inj h
    rfl
  | string written =>
    obtain ⟨rfl, -⟩ := List.cons.inj h
    rfl
  | note σ body =>
    obtain ⟨rfl, -⟩ := List.cons.inj h
    simp [mayStart]
  | mark d =>
    obtain ⟨rfl, rfl⟩ := List.cons.inj h
    simpa [mayStart, isValid, marks] using hv

/-- A token that begins with a mark is one. -/
theorem eq_mark_of_text {t : Token} {c : Char} {cs : List Char} (hv : t.isValid = true)
    (hc : c ∈ marks) (h : t.text = c :: cs) : t = mark c := by
  have hmarks : ∀ c ∈ marks, c.isAlpha = false ∧ c.isDigit = false ∧ c ≠ '-' ∧ c ≠ '0' ∧
      c ≠ '"' ∧ ∀ σ ∈ [Sigil.type, .var, .field], c ≠ σ.char :=
    List.all_iff_forall_prop.mp (by decide)
  have hother := hmarks c hc
  have hs := mayStart_of_text hv h
  cases t with
  | note σ body => cases σ <;> simp_all [mayStart]
  | _ => simp_all [mayStart]

/-- A token that begins with a sigil is a note. -/
theorem eq_note_of_text {t : Token} {c : Char} {cs : List Char} {σ : Sigil}
    (hv : t.isValid = true) (h : t.text = c :: cs) (hc : c = σ.char) : ∃ body, t = note σ body := by
  have hσ : σ.char.isAlpha = false ∧ σ.char.isDigit = false ∧ σ.char ≠ '-' ∧ σ.char ≠ '0' ∧
      σ.char ≠ '"' ∧ σ.char ∉ marks := by cases σ <;> decide
  have hs := mayStart_of_text hv h
  cases t with
  | note τ body =>
    obtain rfl : σ = τ := by
      rw [mayStart, beq_iff_eq, hc] at hs
      revert hs
      cases σ <;> cases τ <;> decide
    exact ⟨body, rfl⟩
  | _ => simp_all [mayStart]

/-- A token that begins with a letter is a word. -/
theorem eq_word_of_text {t : Token} {c : Char} {cs : List Char} (hv : t.isValid = true)
    (hc : c.isAlpha = true) (h : t.text = c :: cs) : t = word (c :: cs) := by
  have hs := mayStart_of_text hv h
  have hdigit : c.isDigit = false := by
    rw [Bool.eq_false_iff]
    intro hd
    rw [isAlpha_of_isDigit hd] at hc
    cases hc
  have hmarks : ∀ d ∈ '-' :: '0' :: '"' :: ':' :: '@' :: '%' :: marks, d.isAlpha = false :=
    List.all_iff_forall_prop.mp (by decide)
  have hother : c ∉ '-' :: '0' :: '"' :: ':' :: '@' :: '%' :: marks := by
    intro hmem
    rw [hmarks c hmem] at hc
    cases hc
  cases t with
  | word letters =>
    rw [← h]
    rfl
  | note σ body => cases σ <;> simp_all [mayStart, Sigil.char]
  | _ => simp_all [mayStart]

end Token

namespace Rule

/-- What the rule for a symbol makes of a text. -/
def lookSymbol (c : Char) : List Char → Answer Unit
  | [] => .refused 0 (.token (String.singleton c))
  | d :: _ => if d = c then .taken 1 () else .refused 0 (.token (String.singleton c))

/-- What the rule for a symbol makes of a token. -/
def readSymbol (c : Char) : Option Token → Reading Unit
  | some (.mark d) => if d = c then .taken () else .refused (.token (String.singleton c))
  | _ => .refused (.token (String.singleton c))

/-- A mark is a lexical rule that looks at one character. -/
theorem symbol_eq (c : Char) : symbol c = lexical (lookSymbol c) := by
  funext limit s
  rw [lexical_run, symbol, peek?_bind]
  rcases s.cursor.rest with _ | ⟨d, cs⟩
  · rfl
  · rw [List.head?_cons, lookSymbol]
    dsimp only
    split
    · rw [Answer.act_taken_unit]
    · rfl

/-- A mark stands in the text if and only if it is the next token. -/
theorem lexical_symbol {c : Char} (hc : c ∈ Token.marks) :
    Lexical (lookSymbol c) (readSymbol c) where
  shows := by
    intro t tail hv _
    obtain ⟨d, cs, htext, -⟩ := Token.exists_text_eq hv
    rw [htext, List.cons_append, lookSymbol]
    by_cases hd : d = c
    · subst hd
      obtain rfl := Token.eq_mark_of_text hv hc htext
      rw [if_pos rfl, readSymbol, if_pos rfl]
      exact ⟨congrArg List.length htext, rfl⟩
    · rw [if_neg hd]
      have hread : readSymbol c (some t) = .refused (.token (String.singleton c)) := by
        cases t with
        | mark e =>
          obtain ⟨rfl, -⟩ := List.cons.inj htext
          exact if_neg hd
        | _ => rfl
      rw [hread]
      exact ⟨rfl, rfl⟩
  atEnd := ⟨rfl, rfl⟩
  sound := by
    intro cs n a h
    rcases cs with _ | ⟨d, cs⟩
    · cases h
    · rw [lookSymbol] at h
      split at h
      · rename_i hd
        cases h
        refine ⟨.mark c, cs, by rw [hd]; rfl, rfl, by simpa [Token.isValid, Token.marks] using hc, rfl⟩
      · cases h

/-! ## Words -/

end Rule

namespace Token

/-- No word ends in front of a character of words. -/
theorem not_isWordChar_of_endsBefore {next : Option Char}
    (h : (next.all fun c => !isWordChar c) = true) :
    ∀ c, next = some c → isWordChar c = false := by
  rintro c rfl
  simpa using h

/-- The word at the front of a text is that of the token there. -/
theorem word?_text {t : Token} {tail : List Char} (hv : t.isValid = true)
    (he : t.endsBefore tail.head? = true) : word? (t.text ++ tail) = t.letters? := by
  obtain ⟨c, cs, htext, -⟩ := exists_text_eq hv
  by_cases hc : c.isAlpha = true
  · obtain rfl := eq_word_of_text hv hc htext
    obtain ⟨_, _, heq, -, hcs⟩ := isValid_word.mp hv
    obtain ⟨rfl, rfl⟩ := List.cons.inj heq
    rw [text, List.cons_append, word?, if_pos hc,
      takeWhile_append_eq hcs (not_isWordChar_of_endsBefore he)]
    rfl
  · have hs := mayStart_of_text hv htext
    rw [htext, List.cons_append, word?, if_neg hc]
    cases t with
    | word letters => exact absurd hs hc
    | _ => rfl

/-- A word at the front of a text is a token. -/
theorem exists_of_word? {cs w : List Char} (h : word? cs = some w) :
    (word w).isValid = true ∧ ∃ tail, cs = w ++ tail ∧ (word w).endsBefore tail.head? = true := by
  cases cs with
  | nil => cases h
  | cons c cs =>
    rw [word?] at h
    split at h
    · rename_i hc
      obtain rfl := Option.some.inj h
      refine ⟨isValid_word.mpr ⟨c, _, rfl, hc, List.all_takeWhile⟩, cs.dropWhile isWordChar, ?_,
        head?_dropWhile_all isWordChar cs⟩
      rw [List.cons_append, List.takeWhile_append_dropWhile]
    · cases h

/-- A note ends where its body cannot be longer, and not in front of any character. -/
theorem endsBefore_note {σ : Sigil} {body : List Char} {next : Option Char}
    (h : (note σ body).endsBefore next = true) :
    ∀ c, next = some c → mayFollowNote c = true ∧ Note.isBody (body ++ [c]) = false := by
  rintro c rfl
  simpa [endsBefore] using h

end Token

namespace Rule

variable {α : Type}

/-- What a rule for words makes of a text, if `f` knows the words it takes. Another word
may be refused before it is passed or after. -/
def lookWord (what : Expectation) (f : List Char → Option α) (late : Bool) (cs : List Char) :
    Answer α :=
  match word? cs with
  | none => .refused 0 what
  | some w =>
    match f w with
    | some a => .taken w.length a
    | none => if late then .returned w.length what else .refused 0 what

/-- What a rule for words makes of a token. -/
def readWord (what : Expectation) (f : List Char → Option α) (t? : Option Token) : Reading α :=
  match t?.bind Token.letters? with
  | none => .refused what
  | some w =>
    match f w with
    | some a => .taken a
    | none => .refused what

/-- The letters in the text are the next token, if that is a word. -/
theorem lexical_word (what : Expectation) (f : List Char → Option α) (late : Bool) :
    Lexical (lookWord what f late) (readWord what f) where
  shows := by
    intro t tail hv he
    rw [lookWord, readWord, Token.word?_text hv he, Option.bind_some]
    cases t with
    | word w =>
      rw [Token.letters?]
      dsimp only
      cases f w with
      | some a => exact ⟨rfl, rfl⟩
      | none =>
        cases late with
        | true => exact ⟨rfl, rfl⟩
        | false => exact ⟨rfl, rfl⟩
    | _ => exact ⟨rfl, rfl⟩
  atEnd := ⟨rfl, rfl⟩
  sound := by
    intro cs n a h
    rw [lookWord] at h
    split at h
    · cases h
    · rename_i w hw
      split at h
      · cases h
        obtain ⟨hv, tail, rfl, he⟩ := Token.exists_of_word? hw
        exact ⟨.word w, tail, rfl, rfl, hv, he⟩
      · split at h <;> cases h

/-- A keyword is a word with one meaning. -/
theorem keyword_eq (name : String) :
    keyword name = lexical (lookWord (.token name)
      (fun w => if w = name.toList then some () else none) false) := by
  funext limit s
  rw [lexical_run, keyword, peekWord?_bind, lookWord]
  cases word? s.cursor.rest with
  | none => rfl
  | some w =>
    dsimp only
    by_cases hw : w = name.toList
    · rw [if_pos hw, if_pos hw, Answer.act_taken_unit]
    · rw [if_neg hw, if_neg hw]
      rfl

theorem headWord_eq (f : String → Option α) (what : Expectation) :
    headWord f what = lexical (lookWord what (fun w => f (String.ofList w)) false) := by
  funext limit s
  rw [lexical_run, headWord, peekWord?_bind, lookWord]
  cases word? s.cursor.rest with
  | none => rfl
  | some w =>
    dsimp only
    cases f (String.ofList w) <;> rfl

/-- A mnemonic is looked up after it has been passed. -/
theorem mnemonicWord_eq :
    Grammar.mnemonicWord = lexical (lookWord .instruction
      (fun w => Instr.Head.ofMnemonic? (String.ofList w)) true) := by
  funext limit s
  rw [lexical_run, Grammar.mnemonicWord, peekWord?_bind, lookWord]
  cases word? s.cursor.rest with
  | none => rfl
  | some w =>
    dsimp only
    rw [cursor_bind]
    cases Instr.Head.ofMnemonic? (String.ofList w) <;> rfl

/-! ## Layout -/

/-- Passing layout moves the cursor behind it and changes nothing else. -/
theorem layout_run (limit : Option Nat) (s : State) :
    layout limit s =
      match Layout.scan .plain s.cursor.rest s.cursor.position with
      | .ok c => ⟨.ok (), { s with cursor := c }⟩
      | .error start =>
        ⟨.halt (.error (.lexical start .unterminatedComment)),
          s.log (.raised (.lexical start .unterminatedComment))⟩ := by
  rw [layout, cursor_bind]
  cases Layout.scan .plain s.cursor.rest s.cursor.position <;> rfl

/-- A rule that passes layout and then yields a value never misses. -/
theorem attempt_layout (a : α) (limit : Option Nat) (s t : State)
    (r : Rule α) (h : r limit s = (layout >>= fun _ => pure a) limit t) :
    attempt r limit s = (layout >>= fun _ => pure a) limit t := by
  rw [attempt, h]
  cases hl : Layout.scan .plain t.cursor.rest t.cursor.position with
  | ok c =>
    have hrun : layout limit t = ⟨.ok (), { t with cursor := c }⟩ := by rw [layout_run, hl]
    rw [bind_ok hrun]
    rfl
  | error start =>
    have hrun : layout limit t = ⟨.halt (.error (.lexical start .unterminatedComment)),
        t.log (.raised (.lexical start .unterminatedComment))⟩ := by rw [layout_run, hl]
    rw [bind_halt hrun]

/-! ## Notes -/

/-- What the rule for a note makes of a text. -/
def lookNote (σ : Sigil) : List Char → Answer (Note σ)
  | [] => .refused 0 (.note σ)
  | c :: cs =>
    if c = σ.char then
      if (cs.drop (Note.scan cs).length).head?.all mayFollowNote then
        .taken (1 + (Note.scan cs).length) (.named (String.ofList (Note.scan cs)))
      else .refused (1 + (Note.scan cs).length) .noteBody
    else .refused 0 (.note σ)

/-- What the rule for a note makes of a token. -/
def readNote (σ : Sigil) : Option Token → Reading (Note σ)
  | some (.note σ' body) =>
    if σ' = σ then .taken (.named (String.ofList body)) else .refused (.note σ)
  | _ => .refused (.note σ)

/-- A note is a lexical rule that looks at its sigil, its body and the character behind. -/
theorem note_eq (σ : Sigil) : Grammar.note σ = lexical (lookNote σ) := by
  funext limit s
  rw [lexical_run, Grammar.note]
  rcases hs : s.cursor.rest with _ | ⟨c, cs⟩
  · rw [attempt, rest_bind, hs]
    rfl
  · rw [lookNote]
    by_cases hc : c = σ.char
    · rw [if_pos hc]
      have hskip : (s.cursor.skip (1 + (Note.scan cs).length)).rest =
          cs.drop (Note.scan cs).length := by
        rw [Cursor.skip_eq, hs, Nat.add_comm, List.drop_succ_cons]
      rcases hnext : (cs.drop (Note.scan cs).length).head? with _ | d
      · rw [Option.all_none, if_pos rfl]
        refine attempt_layout _ _ _ { s with cursor := s.cursor.skip (1 + _) } _ ?_
        rw [rest_bind, hs]
        dsimp only
        rw [if_pos hc, advance_bind, peek?_bind, hskip, hnext]
      · by_cases hd : mayFollowNote d = true
        · rw [Option.all_some, if_pos hd]
          refine attempt_layout _ _ _ { s with cursor := s.cursor.skip (1 + _) } _ ?_
          rw [rest_bind, hs]
          dsimp only
          rw [if_pos hc, advance_bind, peek?_bind, hskip, hnext]
          dsimp only
          rw [if_pos hd]
        · rw [Option.all_some, if_neg hd, Answer.act, attempt, attempt, rest_bind, hs]
          dsimp only
          rw [if_pos hc, advance_bind, peek?_bind, hskip, hnext]
          dsimp only
          rw [if_neg hd]
          rfl
    · rw [if_neg hc, attempt, rest_bind, hs]
      dsimp only
      rw [if_neg hc]
      rfl

/-- A note is refused at another sigil, and behind its body at a character that may not follow. -/
theorem lexical_note (σ : Sigil) : Lexical (lookNote σ) (readNote σ) where
  shows := by
    intro t tail hv he
    obtain ⟨c, cs, htext, -⟩ := Token.exists_text_eq hv
    rw [htext, List.cons_append, lookNote]
    by_cases hc : c = σ.char
    · obtain ⟨body, rfl⟩ := Token.eq_note_of_text hv htext hc
      obtain ⟨-, rfl⟩ := List.cons.inj htext
      have hend := Token.endsBefore_note he
      rw [if_pos hc, Note.scan_append hv fun c hc => (hend c hc).2, List.drop_left, if_pos, readNote,
        if_pos rfl]
      · exact ⟨Nat.add_comm _ _, rfl⟩
      · rw [Option.all_eq_true]
        exact fun c hc => (hend c hc).1
    · rw [if_neg hc]
      have hread : readNote σ (some t) = .refused (.note σ) := by
        cases t with
        | note τ body =>
          obtain ⟨rfl, -⟩ := List.cons.inj htext
          exact if_neg fun h => hc (congrArg Sigil.char h)
        | _ => rfl
      rw [hread]
      exact ⟨rfl, rfl⟩
  atEnd := ⟨rfl, rfl⟩
  sound := by
    intro cs n a h
    rcases cs with _ | ⟨c, cs⟩
    · cases h
    · rw [lookNote] at h
      split at h
      · rename_i hc
        split at h
        · rename_i hfollow
          cases h
          obtain ⟨hbody, tail, hcs, hend⟩ := Note.isBody_scan cs
          refine ⟨.note σ (Note.scan cs), tail, ?_, ?_, hbody, ?_⟩
          · rw [hc, Token.text, List.cons_append, ← hcs]
          · rw [Token.text, List.length_cons, Nat.add_comm]
          · have hdrop := congrArg (List.drop (Note.scan cs).length) hcs
            rw [List.drop_left] at hdrop
            rw [hdrop, Option.all_eq_true] at hfollow
            rw [Token.endsBefore, Option.all_eq_true]
            intro d hd
            rw [hfollow d hd, hend d hd]
            rfl
        · cases h
      · cases h

end Rule

end Michelson
