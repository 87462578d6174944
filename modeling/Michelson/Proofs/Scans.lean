import Michelson.Proofs.Strings

/-!
# Scans

Below the grammar stand a few scans: a function of the cursor that passes some
text and yields a value, or finds an error in it. A scan never goes back, and its
error has the place of a character that it has looked at. Layout is a scan, and
so are the body of a string and the digits of bytes; every rule that takes text
or raises an error of its own does so by one of them.

* `Cursor.Ahead` is the order of places in a text.
* `Scan` says what a scan may do.
* `layout_eq_scanning`, `stringLiteral_eq_scanning` and `bytesLiteral_eq_scanning`
  name the scans.
-/

namespace Michelson

/-! ## Places further on -/

namespace Cursor

/-- The second cursor stands where the first one does, or further on. -/
def Ahead (c c' : Cursor) : Prop := ∃ passed, c.Passes passed c'

/-- No text is passed between a place and itself. -/
theorem Ahead.refl (c : Cursor) : c.Ahead c := ⟨[], rfl, rfl⟩

/-- What is passed on the way is joined. -/
theorem Ahead.trans {c c' c'' : Cursor} (h : c.Ahead c') (h' : c'.Ahead c'') : c.Ahead c'' := by
  obtain ⟨passed, h⟩ := h
  obtain ⟨more, h'⟩ := h'
  exact ⟨passed ++ more, h.trans h'⟩

/-- Skipping goes on in the text, at its end as well. -/
theorem ahead_skip (c : Cursor) (n : Nat) : c.Ahead (c.skip n) := by
  refine ⟨c.rest.take n, ?_⟩
  rw [skip_eq]
  exact ⟨(List.take_append_drop n c.rest).symm, rfl⟩

theorem ahead_cons (ch : Char) (cs : List Char) (p : Position) :
    Ahead ⟨ch :: cs, p⟩ ⟨cs, p.advance ch⟩ :=
  ahead_skip ⟨ch :: cs, p⟩ 1

end Cursor

/-- The error was found by a scan from the cursor: a malformed token or literal at a
place that is not before it. -/
def Error.FoundFrom (c : Cursor) (e : Error) : Prop :=
  ∃ c', c.Ahead c' ∧
    ((∃ fault, e = .lexical c'.position fault) ∨ ∃ fault, e = .literal c'.position fault)

/-- An error further on is one from here. -/
theorem Error.FoundFrom.of_ahead {c c' : Cursor} {e : Error} (h : e.FoundFrom c')
    (ha : c.Ahead c') : e.FoundFrom c := by
  obtain ⟨c'', hc, he⟩ := h
  exact ⟨c'', ha.trans hc, he⟩

theorem Error.foundFrom_lexical {c c' : Cursor} (fault : LexicalFault) (h : c.Ahead c') :
    (Error.lexical c'.position fault).FoundFrom c := ⟨c', h, .inl ⟨fault, rfl⟩⟩

theorem Error.foundFrom_literal {c c' : Cursor} (fault : LiteralFault) (h : c.Ahead c') :
    (Error.literal c'.position fault).FoundFrom c := ⟨c', h, .inr ⟨fault, rfl⟩⟩

/-! ### Characters of the text in an error -/

/-- The characters in the wording of a fault that are not the same for all faults of its
kind, numbers apart. -/
def LexicalFault.quoted : LexicalFault → List Char
  | strayCharacter c => [c]
  | unknownEscape c => [c]
  | stated text => text.toList
  | _ => []

@[inherit_doc LexicalFault.quoted]
def LiteralFault.quoted : LiteralFault → List Char
  | oddHexDigits literal => literal.toList
  | stated text => text.toList

/-- The characters that the fault of an error quotes. -/
def Error.quoted : Error → List Char
  | lexical _ fault => fault.quoted
  | literal _ fault => fault.quoted
  | _ => []

/-- The error quotes nothing but the text and characters of words. -/
def Error.Quotes (text : List Char) (e : Error) : Prop :=
  ∀ ch ∈ e.quoted, ch ∈ text ∨ isWordChar ch

/-- Where nothing is quoted, nothing is quoted from elsewhere. -/
theorem Error.quotes_of_nil {text : List Char} {e : Error} (h : e.quoted = []) :
    e.Quotes text := by
  intro ch hch
  rw [h] at hch
  cases hch

/-- The error quotes one character at most, or characters of words. -/
def Error.IsTerse (e : Error) : Prop := e.quoted.length ≤ 1 ∨ e.quoted.all isWordChar = true

theorem Error.isTerse_of_nil {e : Error} (h : e.quoted = []) : e.IsTerse := by
  rw [IsTerse, h]
  exact .inl (Nat.zero_le 1)

/-- What is quoted from the text further on is quoted from the text. -/
theorem Error.Quotes.of_ahead {c c' : Cursor} {e : Error} (h : e.Quotes c'.rest)
    (ha : c.Ahead c') : e.Quotes c.rest := by
  obtain ⟨passed, hrest, -⟩ := ha
  intro ch hch
  rw [hrest]
  exact (h ch hch).imp_left (List.mem_append_right _)

/-! ## Scans as rules -/

variable {α : Type}

/-- A scan goes on in the text, and finds its errors there. -/
structure Scan (look : Cursor → Except Error (α × Cursor)) : Prop where
  ahead {c c' : Cursor} {a : α} : look c = .ok (a, c') → c.Ahead c'
  found {c : Cursor} {e : Error} : look c = .error e → e.FoundFrom c

/-- A scan whose errors quote the text, and not much of it. -/
structure QuotingScan (look : Cursor → Except Error (α × Cursor)) : Prop extends Scan look where
  quotes {c : Cursor} {e : Error} : look c = .error e → e.Quotes c.rest
  terse {c : Cursor} {e : Error} : look c = .error e → e.IsTerse

namespace Rule

/-- Runs a scan. -/
def scanning (look : Cursor → Except Error (α × Cursor)) : Rule α := fun _ s =>
  match look s.cursor with
  | .ok (a, c) => ⟨.ok a, { s with cursor := c }⟩
  | .error e => ⟨.halt (.error e), s.log (.raised e)⟩

/-! ### The cursor -/

theorem scan_here : Scan fun c : Cursor => .ok (c, c) where
  ahead h := by
    cases h
    exact .refl _
  found h := nomatch h

/-- Skipping characters finds no error. -/
theorem scan_skip (n : Nat) : Scan fun c => .ok ((), c.skip n) where
  ahead h := by
    cases h
    exact Cursor.ahead_skip _ n
  found h := nomatch h

theorem quoting_here : QuotingScan fun c : Cursor => .ok (c, c) where
  toScan := scan_here
  quotes h := nomatch h
  terse h := nomatch h

theorem quoting_skip (n : Nat) : QuotingScan fun c => .ok ((), c.skip n) where
  toScan := scan_skip n
  quotes h := nomatch h
  terse h := nomatch h

end Rule

/-! ## Layout -/

namespace Layout

/-- The place of a comment that is never closed is one where the scan was in plain
layout, or the one with which it began. -/
theorem scan_error {mode : Mode} {cs : List Char} {p start : Position}
    (h : scan mode cs p = .error start) :
    (mode = .opening start ∨ mode = .block start) ∨
      ∃ c, Cursor.Ahead ⟨cs, p⟩ c ∧ c.position = start := by
  -- one character more stands before the place
  have further {ch : Char} {cs : List Char} {p : Position}
      (h : ∃ c, Cursor.Ahead ⟨cs, p.advance ch⟩ c ∧ c.position = start) :
      ∃ c, Cursor.Ahead ⟨ch :: cs, p⟩ c ∧ c.position = start :=
    h.imp fun _ hc => ⟨(Cursor.ahead_cons ch cs p).trans hc.1, hc.2⟩
  fun_induction scan mode cs p
  case case1 | case5 | case6 | case14 => cases h
  case case9 => exact .inl (.inl (congrArg _ (Except.error.inj h)))
  case case11 => exact .inl (.inr (congrArg _ (Except.error.inj h)))
  case case4 ih =>
    rcases ih h with (hm | hm) | hc
    · cases hm
      exact .inr ⟨_, .refl _, rfl⟩
    · cases hm
    · exact .inr (further hc)
  case case10 ih =>
    rcases ih h with (hm | hm) | hc
    · cases hm
    · cases hm
      exact .inl (.inl rfl)
    · exact .inr (further hc)
  case case13 ih =>
    rcases ih h with (hm | hm) | hc
    · cases hm
    · exact .inl (.inr hm)
    · exact .inr (further hc)
  all_goals
    rename_i ih
    rcases ih h with (hm | hm) | hc
    · cases hm
    · cases hm
    · exact .inr (further hc)

/-- Layout as a scan. -/
def pass (c : Cursor) : Except Error (Unit × Cursor) :=
  match scan .plain c.rest c.position with
  | .ok c' => .ok ((), c')
  | .error start => .error (.lexical start .unterminatedComment)

/-- Layout ends behind its comments, or with an error at the one that is never closed. -/
theorem scan_pass : Scan pass where
  ahead {c c' _} h := by
    rw [pass] at h
    split at h
    · rename_i hscan
      cases h
      obtain ⟨gap, hrest, hpos, -⟩ := fills_of_scan hscan
      exact ⟨gap, hrest, hpos⟩
    · cases h
  found {c e} h := by
    rw [pass] at h
    split at h
    · cases h
    · rename_i hscan
      cases h
      rcases scan_error hscan with (hm | hm) | ⟨c', hc, rfl⟩
      · cases hm
      · cases hm
      · exact Error.foundFrom_lexical _ hc

/-- A comment that is not closed is not quoted. -/
theorem quoted_of_pass {c : Cursor} {e : Error} (h : pass c = .error e) : e.quoted = [] := by
  rw [pass] at h
  split at h
  · cases h
  · cases h
    rfl

/-- The error about a comment says where it begins, and nothing of what it says. -/
theorem quoting_pass : QuotingScan pass where
  toScan := scan_pass
  quotes h := Error.quotes_of_nil (quoted_of_pass h)
  terse h := Error.isTerse_of_nil (quoted_of_pass h)

/-- Layout is the scan of the same name. -/
theorem layout_eq_scanning : Rule.layout = Rule.scanning pass := by
  funext limit s
  rw [Rule.layout_run, Rule.scanning, pass]
  cases scan .plain s.cursor.rest s.cursor.position <;> rfl

end Layout

/-! ## Strings -/

namespace Literal

/-- The error has the place that the caller hands in. -/
theorem numericEscape_found {radix : Nat} {start c : Cursor} {e : Error}
    (h : numericEscape radix start.position c = .error e) : e.FoundFrom start := by
  unfold numericEscape at h
  dsimp only at h
  split at h
  · cases h
    exact Error.foundFrom_lexical _ (.refl _)
  · split at h
    · cases h
    · cases h
      exact Error.foundFrom_lexical _ (.refl _)

/-- Whatever is wrong with an escape is told at the letter behind the backslash. -/
theorem escape_found {c : Cursor} {e : Error} (h : escape c = .error e) : e.FoundFrom c := by
  unfold escape at h
  split at h
  · cases h
    exact Error.foundFrom_lexical _ (.refl _)
  · split at h
    · cases h
    · split at h
      · exact numericEscape_found h
      · split at h
        · exact numericEscape_found h
        · split at h
          · exact numericEscape_found h
          · cases h
            exact Error.foundFrom_lexical _ (.refl _)

/-- The error of a string is about its end, or is one of an escape further on. -/
theorem stringBody_error_cases {start : Position} {c : Cursor} {bound : Nat} {e : Error}
    (h : stringBody start bound c = .error e) :
    e = .lexical start .unterminatedString ∨ ∃ c', c.Ahead c' ∧ escape c' = .error e := by
  induction bound generalizing c with
  | zero =>
    cases h
    exact .inl rfl
  | succ bound ih =>
    have hone : c.Ahead (c.skip 1) := Cursor.ahead_skip c 1
    rw [stringBody] at h
    split at h
    · cases h
      exact .inl rfl
    · split at h
      · cases h
      · split at h
        · split at h
          · rename_i hesc
            cases h
            exact .inr ⟨_, hone, hesc⟩
          · rename_i hesc
            split at h
            · rename_i hbody
              cases h
              obtain ⟨d, digits, radix, -, hpass⟩ := passes_escape hesc
              exact (ih hbody).imp_right fun ⟨c', ha, hc'⟩ =>
                ⟨c', (hone.trans ⟨_, hpass⟩).trans ha, hc'⟩
            · cases h
        · split at h
          · rename_i hbody
            cases h
            exact (ih hbody).imp_right fun ⟨c', ha, hc'⟩ => ⟨c', hone.trans ha, hc'⟩
          · cases h

/-- The error of a string has the place of its opening quote or one further on. -/
theorem stringBody_found {start c : Cursor} {bound : Nat} {e : Error} (hc : start.Ahead c)
    (h : stringBody start.position bound c = .error e) : e.FoundFrom start := by
  rcases stringBody_error_cases h with rfl | ⟨c', ha, hesc⟩
  · exact Error.foundFrom_lexical _ (.refl _)
  · exact (escape_found hesc).of_ahead (hc.trans ha)

/-- A string from its opening quote to its closing one, as a scan. -/
def passString (c : Cursor) : Except Error (List Char × Cursor) :=
  stringBody c.position c.rest.length (c.skip 1)

/-- A string ends behind its closing quote, or with an error at or behind its opening one. -/
theorem scan_passString : Scan passString where
  ahead {c c' a} h := by
    obtain ⟨written, -, hpass⟩ := passes_stringBody h
    exact (Cursor.ahead_skip c 1).trans ⟨_, hpass⟩
  found {c e} h := stringBody_found (Cursor.ahead_skip c 1) h

/-- A code that is too large is told as a number. -/
theorem numericEscape_quotes {radix : Nat} {start : Position} {c : Cursor} {e : Error}
    (h : numericEscape radix start c = .error e) : e.quoted = [] := by
  unfold numericEscape at h
  dsimp only at h
  split at h
  · cases h
    rfl
  · split at h
    · cases h
    · cases h
      rfl

/-- The error of an escape quotes nothing but the letter of one that is not known. -/
theorem escape_quoted {c : Cursor} {e : Error} (h : escape c = .error e) :
    e.quoted = [] ∨ ∃ d ds, c.rest = d :: ds ∧ e.quoted = [d] := by
  unfold escape at h
  split at h
  · cases h
    exact .inl rfl
  · rename_i d ds hrest
    split at h
    · cases h
    · split at h
      · exact .inl (numericEscape_quotes h)
      · split at h
        · exact .inl (numericEscape_quotes h)
        · split at h
          · exact .inl (numericEscape_quotes h)
          · cases h
            exact .inr ⟨d, ds, hrest, rfl⟩

theorem escape_quotes {c : Cursor} {e : Error} (h : escape c = .error e) : e.Quotes c.rest := by
  rcases escape_quoted h with hnil | ⟨d, ds, hrest, hd⟩
  · exact Error.quotes_of_nil hnil
  · intro ch hch
    rw [hd, List.mem_singleton] at hch
    rw [hrest, hch]
    exact .inl List.mem_cons_self

/-- One letter at most is quoted, the one behind the backslash. -/
theorem escape_terse {c : Cursor} {e : Error} (h : escape c = .error e) : e.IsTerse := by
  rcases escape_quoted h with hnil | ⟨d, ds, -, hd⟩
  · exact Error.isTerse_of_nil hnil
  · exact .inl (congrArg List.length hd).le

/-- A string that is never closed is not quoted at all. -/
theorem quoting_passString : QuotingScan passString where
  toScan := scan_passString
  quotes {c _} h := by
    rcases stringBody_error_cases h with rfl | ⟨c', ha, hesc⟩
    · exact Error.quotes_of_nil rfl
    · exact (escape_quotes hesc).of_ahead ((Cursor.ahead_skip c 1).trans ha)
  terse h := by
    rcases stringBody_error_cases h with rfl | ⟨c', -, hesc⟩
    · exact Error.isTerse_of_nil rfl
    · exact escape_terse hesc

end Literal

namespace Grammar

open Rule

/-- The string is scanned between the look at its quote and the layout behind it. -/
theorem stringLiteral_eq_scanning : stringLiteral = (do
    match ← peek? with
    | some '"' => do
      let text ← scanning Literal.passString
      layout
      pure (.string (String.ofList text))
    | _ => fail .string) := by
  funext limit s
  rw [stringLiteral, cursor_bind, peek?_bind]
  obtain ⟨⟨cs, p⟩, depth, furthest, journal⟩ := s
  dsimp only
  split
  · rename_i ds
    cases hb : Literal.stringBody p (ds.length + 1) (Cursor.skip 1 ⟨'"' :: ds, p⟩) with
    | ok ended =>
      have hpass : Literal.passString ⟨'"' :: ds, p⟩ = .ok ended := hb
      refine Eq.symm (bind_ok ?_)
      rw [scanning, hpass]
    | error e =>
      have hpass : Literal.passString ⟨'"' :: ds, p⟩ = .error e := hb
      refine Eq.symm (bind_halt ?_)
      rw [scanning, hpass]
  · rename_i hq
    refine congrFun (congrFun ?_ limit) _
    split
    · rename_i h
      obtain ⟨ds, rfl⟩ := List.head?_eq_some_iff.mp h
      exact absurd rfl (hq ds)
    · rfl

/-- The error about the digits of bytes, as a scan. -/
def oddDigits (digits : List Char) (c : Cursor) : Except Error (Data × Cursor) :=
  .error (.literal c.position (.oddHexDigits (String.ofList ('0' :: 'x' :: digits))))

/-- This scan passes nothing and always finds an error. -/
theorem scan_oddDigits (digits : List Char) : Scan (oddDigits digits) where
  ahead h := nomatch h
  found h := by
    cases h
    exact Error.foundFrom_literal _ (.refl _)

/-- The digits in the error are characters of words. -/
theorem quoted_of_oddDigits {digits : List Char} (h : ∀ ch ∈ digits, isWordChar ch) {c : Cursor}
    {e : Error} (he : oddDigits digits c = .error e) : ∀ ch ∈ e.quoted, isWordChar ch := by
  cases he
  intro ch hch
  have hch : ch ∈ '0' :: 'x' :: digits := by
    simpa only [Error.quoted, LiteralFault.quoted, String.toList_ofList] using hch
  simp only [List.mem_cons] at hch
  rcases hch with rfl | rfl | hch
  · rfl
  · rfl
  · exact h ch hch

/-- The digits may be as many as the text has. They are characters of words, all of them. -/
theorem quoting_oddDigits {digits : List Char} (h : ∀ ch ∈ digits, isWordChar ch) :
    QuotingScan (oddDigits digits) where
  toScan := scan_oddDigits digits
  quotes he ch hch := .inr (quoted_of_oddDigits h he ch hch)
  terse he := .inr (List.all_eq_true.mpr (quoted_of_oddDigits h he))

/-- Where the digits do not pair up, the rule is the scan that finds the error. -/
theorem bytesLiteral_eq_scanning : bytesLiteral = (do
    match ← rest with
    | '0' :: 'x' :: cs =>
      let digits := cs.takeWhile (Numeral.isDigit 16)
      if endsWord (cs.drop digits.length) then
        match Numeral.ofHex? digits with
        | some bytes => do
          token (digits.length + 2)
          pure (.bytes bytes)
        | none => scanning (oddDigits digits)
      else fail .bytes
    | _ => fail .bytes) := rfl

end Grammar

end Michelson
