import Michelson.Grammar.Literals
import Michelson.Proofs.Lexical

/-!
# The tokens of strings

The text of a string is read from its opening quote to its closing one. Whether
it can be read, and what it is, depends on what is written between the quotes
alone.

* `Literal.passes_stringBody` says that what is read as a string is closed by a
  quote.
* `Literal.stringBody_closed` says that what stands behind the closing quote does
  not matter.
* `Rule.lexical_string` gives the table of the rule for strings.
-/

namespace Michelson

namespace Cursor

/-- From the cursor `c` the characters `cs` lead to the cursor `c'`. -/
def Passes (c : Cursor) (cs : List Char) (c' : Cursor) : Prop :=
  c.rest = cs ++ c'.rest ∧ c'.position = c.position.after cs

variable {c c' c'' : Cursor} {cs ds : List Char}

theorem Passes.trans (h : c.Passes cs c') (h' : c'.Passes ds c'') : c.Passes (cs ++ ds) c'' := by
  obtain ⟨hr, hp⟩ := h
  obtain ⟨hr', hp'⟩ := h'
  exact ⟨by rw [hr, hr', List.append_assoc], by rw [hp', hp, Position.after_append]⟩

/-- What is passed settles where it leads. -/
theorem Passes.skip_eq (h : c.Passes cs c') : c.skip cs.length = c' := by
  obtain ⟨rest, p⟩ := c'
  obtain ⟨hr, hp⟩ := h
  rw [Cursor.skip_eq, hr, List.drop_left, List.take_left]
  exact congrArg (Cursor.mk rest) hp.symm

/-- Skipping what the text begins with passes it. -/
theorem passes_skip {w : List Char} (h : c.rest = w ++ ds) : c.Passes w (c.skip w.length) := by
  rw [Passes, Cursor.skip_eq, h, List.drop_left, List.take_left]
  exact ⟨rfl, rfl⟩

theorem rest_skip {w : List Char} (h : c.rest = w ++ ds) : (c.skip w.length).rest = ds := by
  rw [Cursor.skip_eq, h, List.drop_left]

theorem skip_add (m n : Nat) (c : Cursor) : c.skip (m + n) = (c.skip m).skip n := by
  simp only [skip_eq, List.drop_drop, List.take_add, Position.after_append]

end Cursor

namespace Literal

open Cursor

/-! ## What is read is closed -/

theorem isClosed_backslash (c : Char) (cs : List Char) :
    Token.isClosed ('\\' :: c :: cs) = Token.isClosed cs := by
  rw [Token.isClosed]

theorem isClosed_cons {c : Char} (hb : c ≠ '\\') (hq : c ≠ '"') (cs : List Char) :
    Token.isClosed (c :: cs) = Token.isClosed cs := by
  rw [Token.isClosed]
  · simp [hq]
  · exact hb

theorem not_isDigit {c : Char} (h : c.isDigit = true) : c ≠ '\\' ∧ c ≠ '"' := by
  constructor <;> rintro rfl <;> revert h <;> decide

/-- Digits neither close a string nor open an escape. -/
theorem isClosed_digits {radix : Nat} {digits cs : List Char}
    (h : digits.all (Numeral.isDigit radix) = true) :
    Token.isClosed (digits ++ cs) = Token.isClosed cs := by
  induction digits with
  | nil => rfl
  | cons d digits ih =>
    rw [List.all_cons, Bool.and_eq_true] at h
    have hb : d ≠ '\\' := by
      rintro rfl
      have := h.1
      simp [Numeral.isDigit, Numeral.digit?] at this
    have hq : d ≠ '"' := by
      rintro rfl
      have := h.1
      simp [Numeral.isDigit, Numeral.digit?] at this
    rw [List.cons_append, isClosed_cons hb hq, ih h.2]

/-- A numeric escape passes digits. -/
theorem passes_numericEscape {radix : Nat} {start : Position} {c c' : Cursor} {ch : Char}
    (h : numericEscape radix start c = .ok (ch, c')) :
    ∃ digits, digits ≠ [] ∧ digits.all (Numeral.isDigit radix) = true ∧ c.Passes digits c' := by
  unfold numericEscape at h
  dsimp only at h
  split at h
  · cases h
  · rename_i hne
    split at h
    · cases h
      exact ⟨_, by simpa using hne, List.all_takeWhile,
        passes_skip List.takeWhile_append_dropWhile.symm⟩
    · cases h

/-- An escape passes a character and digits after it. -/
theorem passes_escape {c c' : Cursor} {ch : Char} (h : escape c = .ok (ch, c')) :
    ∃ d digits radix, digits.all (Numeral.isDigit radix) = true ∧ c.Passes (d :: digits) c' := by
  unfold escape at h
  split at h
  · cases h
  · rename_i d ds hrest
    have hone : c.Passes [d] (c.skip 1) := passes_skip hrest
    split at h
    · cases h
      exact ⟨d, [], 10, rfl, hone⟩
    · split at h
      · obtain ⟨digits, -, hd, hp⟩ := passes_numericEscape h
        exact ⟨d, digits, 16, hd, hone.trans hp⟩
      · split at h
        · obtain ⟨digits, -, hd, hp⟩ := passes_numericEscape h
          exact ⟨d, digits, 8, hd, hone.trans hp⟩
        · split at h
          · obtain ⟨digits, hne, hd, hp⟩ := passes_numericEscape h
            obtain ⟨e, digits, rfl⟩ := List.exists_cons_of_ne_nil hne
            rw [List.all_cons, Bool.and_eq_true] at hd
            exact ⟨e, digits, 10, hd.2, hp⟩
          · cases h

/-- What is read as a string is closed by a quote. -/
theorem passes_stringBody {start : Position} {bound : Nat} {c c' : Cursor} {text : List Char}
    (h : stringBody start bound c = .ok (text, c')) :
    ∃ written, Token.isClosed written = true ∧ c.Passes (written ++ ['"']) c' := by
  induction bound generalizing c text with
  | zero => cases h
  | succ bound ih =>
    rw [stringBody] at h
    split at h
    · cases h
    · rename_i d ds hrest
      have hone : c.Passes [d] (c.skip 1) := passes_skip hrest
      split at h
      · rename_i hd
        cases h
        exact ⟨[], rfl, by rwa [hd] at hone⟩
      · rename_i hq
        split at h
        · rename_i hd
          split at h
          · cases h
          · rename_i he
            split at h
            · cases h
            · rename_i hb
              cases h
              obtain ⟨e, digits, radix, hdigits, hesc⟩ := passes_escape he
              obtain ⟨written, hclosed, hbody⟩ := ih hb
              refine ⟨d :: e :: (digits ++ written), ?_, ?_⟩
              · rw [hd, isClosed_backslash, isClosed_digits hdigits, hclosed]
              · have hp := (hone.trans hesc).trans hbody
                simpa using hp
        · rename_i hb
          split at h
          · cases h
          · rename_i hbody
            cases h
            obtain ⟨written, hclosed, hbody⟩ := ih hbody
            exact ⟨d :: written, by rw [isClosed_cons hb hq, hclosed], hone.trans hbody⟩

/-! ## What is closed is read -/

/-- Two readings of a string have ended alike, with the given texts left. -/
inductive SameEnd {α : Type} (tail tail' : List Char) :
    Except Error (α × Cursor) → Except Error (α × Cursor) → Prop where
  | ok {a : α} {c c' : Cursor} (h : c.rest = tail) (h' : c'.rest = tail') :
      SameEnd tail tail' (.ok (a, c)) (.ok (a, c'))
  | error (p p' : Position) (fault fault' : LexicalFault) :
      SameEnd tail tail' (.error (.lexical p fault)) (.error (.lexical p' fault'))

/-- One character more in front. -/
theorem SameEnd.cons {tail tail' : List Char} {x y : Except Error (List Char × Cursor)}
    (ch : Char) : SameEnd tail tail' x y → SameEnd tail tail'
      (match x with
        | .error e => .error e
        | .ok (chs, c) => .ok (ch :: chs, c))
      (match y with
        | .error e => .error e
        | .ok (chs, c) => .ok (ch :: chs, c)) := by
  intro h
  cases h with
  | ok h h' => exact .ok h h'
  | error => exact .error _ _ _ _

theorem isDigit_quote (radix : Nat) : Numeral.isDigit radix '"' = false := by
  simp [Numeral.isDigit, Numeral.digit?]

/-- Digits before a quote are read alike, whatever follows the quote. -/
theorem numericEscape_closed (radix : Nat) (start start' : Position) {c c' : Cursor}
    {written tail tail' : List Char} (hclosed : Token.isClosed written = true)
    (hc : c.rest = written ++ '"' :: tail) (hc' : c'.rest = written ++ '"' :: tail') :
    ∃ more, Token.isClosed more = true ∧ more.length ≤ written.length ∧
      SameEnd (more ++ '"' :: tail) (more ++ '"' :: tail')
        (numericEscape radix start c) (numericEscape radix start' c') := by
  have htake (tail : List Char) : (written ++ '"' :: tail).takeWhile (Numeral.isDigit radix) =
      written.takeWhile (Numeral.isDigit radix) := by
    rw [List.takeWhile_append]
    split
    · rename_i hall
      rw [List.takeWhile_cons_of_neg (by simp [isDigit_quote]), List.append_nil]
      exact ((List.takeWhile_prefix _).eq_of_length hall).symm
    · rfl
  have hsplit := List.takeWhile_append_dropWhile (p := Numeral.isDigit radix) (l := written)
  refine ⟨written.dropWhile (Numeral.isDigit radix), ?_, ?_, ?_⟩
  · rwa [← isClosed_digits List.all_takeWhile, hsplit]
  · exact (List.dropWhile_sublist _).length_le
  · unfold numericEscape
    rw [hc, hc', htake, htake]
    dsimp only
    split
    · exact .error _ _ _ _
    · split
      · refine .ok (rest_skip ?_) (rest_skip ?_)
        · rw [hc, ← List.append_assoc, hsplit]
        · rw [hc', ← List.append_assoc, hsplit]
      · exact .error _ _ _ _

/-- An escape before a quote is read alike, whatever follows the quote. -/
theorem escape_closed {c c' : Cursor} {d : Char} {written tail tail' : List Char}
    (hclosed : Token.isClosed written = true) (hc : c.rest = d :: (written ++ '"' :: tail))
    (hc' : c'.rest = d :: (written ++ '"' :: tail')) :
    ∃ more, Token.isClosed more = true ∧ more.length ≤ (d :: written).length ∧
      SameEnd (more ++ '"' :: tail) (more ++ '"' :: tail') (escape c) (escape c') := by
  have hone : (c.skip 1).rest = written ++ '"' :: tail := rest_skip (w := [d]) hc
  have hone' : (c'.skip 1).rest = written ++ '"' :: tail' := rest_skip (w := [d]) hc'
  unfold escape
  rw [hc, hc']
  dsimp only
  cases simpleEscape? d with
  | some ch => exact ⟨written, hclosed, Nat.le_succ _, .ok hone hone'⟩
  | none =>
    have hnumeric (radix : Nat) :=
      numericEscape_closed radix c.position c'.position hclosed hone hone'
    dsimp only
    split
    · obtain ⟨more, hmore, hlen, hend⟩ := hnumeric 16
      exact ⟨more, hmore, hlen.trans (Nat.le_succ _), hend⟩
    · split
      · obtain ⟨more, hmore, hlen, hend⟩ := hnumeric 8
        exact ⟨more, hmore, hlen.trans (Nat.le_succ _), hend⟩
      · split
        · rename_i hd
          have hdclosed : Token.isClosed (d :: written) = true := by
            rw [isClosed_cons (not_isDigit hd).1 (not_isDigit hd).2, hclosed]
          exact numericEscape_closed _ _ _ hdclosed hc hc'
        · exact ⟨written, hclosed, Nat.le_succ _, .error _ _ _ _⟩

/-- **Strings are closed by their quotes.** What is written between the quotes settles
whether a string can be read and what it is. -/
theorem stringBody_closed (start start' : Position) (c c' : Cursor) {written tail tail' : List Char}
    {bound bound' : Nat} (hclosed : Token.isClosed written = true)
    (hc : c.rest = written ++ '"' :: tail) (hc' : c'.rest = written ++ '"' :: tail')
    (hb : written.length < bound) (hb' : written.length < bound') :
    SameEnd tail tail' (stringBody start bound c) (stringBody start' bound' c') := by
  induction bound generalizing written bound' c c' with
  | zero => exact absurd hb (Nat.not_lt_zero _)
  | succ bound ih =>
    obtain ⟨bound', rfl⟩ : ∃ n, bound' = n + 1 := ⟨bound' - 1, by omega⟩
    rw [stringBody, stringBody]
    rcases written with _ | ⟨d, written⟩
    · rw [hc, hc']
      dsimp only [List.nil_append]
      rw [if_pos rfl, if_pos rfl]
      exact .ok (rest_skip (w := ['"']) hc) (rest_skip (w := ['"']) hc')
    · have hone : (c.skip 1).rest = written ++ '"' :: tail := rest_skip (w := [d]) hc
      have hone' : (c'.skip 1).rest = written ++ '"' :: tail' := rest_skip (w := [d]) hc'
      rw [List.length_cons] at hb hb'
      rw [hc, hc']
      dsimp only [List.cons_append]
      by_cases hd : d = '\\'
      · subst hd
        rw [if_neg (by decide), if_pos rfl, if_neg (by decide), if_pos rfl]
        rcases written with _ | ⟨e, written⟩
        · cases hclosed
        · -- an escape is read to the same end, and what is left is closed again
          rw [isClosed_backslash] at hclosed
          rw [List.length_cons] at hb hb'
          obtain ⟨more, hmore, hlen, hend⟩ := escape_closed hclosed hone hone'
          rw [List.length_cons] at hlen
          revert hend
          generalize escape (c.skip 1) = x
          generalize escape (c'.skip 1) = y
          intro hend
          cases hend with
          | error => exact .error _ _ _ _
          | ok hx hy =>
            exact .cons _ (ih _ _ hmore hx hy (by omega) (by omega))
      · have hq : d ≠ '"' := by
          rintro rfl
          cases hclosed
        rw [isClosed_cons hd hq] at hclosed
        rw [if_neg hq, if_neg hd, if_neg hq, if_neg hd]
        exact .cons _ (ih _ _ hclosed hone hone' (by omega) (by omega))

/-- A string that is read is read in the same way at all places. -/
theorem stringBody_uniform (q start' : Position) {ds text : List Char} {p start : Position}
    {c : Cursor}
    (h : stringBody start (ds.length + 1) ⟨ds, p⟩ = .ok (text, c)) :
    ∃ c', stringBody start' (ds.length + 1) ⟨ds, q⟩ = .ok (text, c') ∧ c'.rest = c.rest := by
  obtain ⟨written, hclosed, hrest, -⟩ := passes_stringBody h
  have hds : ds = written ++ '"' :: c.rest := by
    rw [List.append_assoc] at hrest
    exact hrest
  have hlen : written.length < ds.length + 1 := by
    rw [hds, List.length_append]
    omega
  have hend := stringBody_closed start start' ⟨ds, p⟩ ⟨ds, q⟩ hclosed hds hds hlen hlen
  rw [h] at hend
  generalize hy : stringBody start' (ds.length + 1) ⟨ds, q⟩ = y at hend
  cases hend with
  | ok _ hc => exact ⟨_, rfl, hc⟩

/-- The error of a string whose opening quote stands at `p`. -/
def stringError (p : Position) (ds : List Char) : Error :=
  match stringBody p (ds.length + 1) ⟨ds, p.advance '"'⟩ with
  | .error e => e
  | .ok _ => .lexical p .unterminatedString

/-- The text of a string by what is written between its quotes. -/
def content? (written : List Char) : Option (List Char) :=
  match stringBody .start (written.length + 1) ⟨written ++ ['"'], .start⟩ with
  | .error _ => none
  | .ok (text, _) => some text

end Literal

namespace Rule

open Literal

/-- What the rule for a string makes of a text. -/
def lookString : List Char → Answer Data
  | '"' :: ds =>
    match stringBody .start (ds.length + 1) ⟨ds, .start⟩ with
    | .ok (text, c) => .taken (ds.length + 1 - c.rest.length) (.string (String.ofList text))
    | .error _ => .stopped fun p => stringError p ds
  | _ => .refused 0 .string

/-- What the rule for a string makes of a token. -/
def readString : Option Token → Reading Data
  | some (.string written) =>
    match content? written with
    | some text => .taken (.string (String.ofList text))
    | none => .stopped "lex"
  | _ => .refused .string

/-- No string is read where no quote stands. -/
theorem lookString_of_ne {cs : List Char} (h : cs.head? ≠ some '"') :
    lookString cs = .refused 0 .string := by
  unfold lookString
  split
  · exact absurd rfl h
  · rfl

theorem stringLiteral_eq : Grammar.stringLiteral = lexical lookString := by
  funext limit s
  rw [lexical_run, Grammar.stringLiteral, cursor_bind]
  obtain ⟨⟨cs, p⟩, depth, furthest, journal⟩ := s
  by_cases hq : cs.head? = some '"'
  · obtain ⟨ds, rfl⟩ := List.head?_eq_some_iff.mp hq
    change (match stringBody p (ds.length + 1) ⟨ds, p.advance '"'⟩ with
      | .ok (text, c') => do
        moveTo c'
        layout
        pure (.string (String.ofList text))
      | .error e => raise e : Rule Data) limit _ = _
    rw [lookString]
    cases hp : stringBody p (ds.length + 1) ⟨ds, p.advance '"'⟩ with
    | ok ended =>
      obtain ⟨text, c⟩ := ended
      obtain ⟨c', hstart, hrest⟩ := stringBody_uniform .start .start hp
      obtain ⟨written, -, hpass⟩ := passes_stringBody hp
      have hskip := (Cursor.passes_skip (c := ⟨'"' :: ds, p⟩) (w := ['"']) rfl).trans hpass
      have hlen : ds.length + 1 - c'.rest.length = (['"'] ++ (written ++ ['"'])).length := by
        have hds := congrArg List.length hpass.1
        simp only [List.length_append, List.length_cons, List.length_nil] at hds ⊢
        rw [hrest]
        omega
      rw [hstart]
      dsimp only
      rw [hlen, moveTo_bind, ← hskip.skip_eq]
      rfl
    | error e =>
      -- a string that is read at the start of a text would be read here as well
      cases hstart : stringBody .start (ds.length + 1) ⟨ds, .start⟩ with
      | ok ended =>
        obtain ⟨text, c⟩ := ended
        obtain ⟨c', hp', -⟩ := stringBody_uniform (p.advance '"') p hstart
        rw [hp] at hp'
        cases hp'
      | error e' =>
        have herror : stringError p ds = e := by rw [stringError, hp]
        dsimp only [Answer.act]
        rw [position_bind, herror]
  · rw [lookString_of_ne hq]
    refine congrFun (congrFun ?_ limit) _
    dsimp only
    split
    · exact absurd rfl hq
    · rfl

/-- A string literal is read up to the quote that closes it, or its fault is told. -/
theorem shows_string {written : List Char} (hv : Token.isClosed written = true) (tail : List Char) :
    (lookString ((Token.string written).text ++ tail)).Shows (Token.string written).text.length
      (readString (some (.string written))) := by
  have heq : (Token.string written).text ++ tail = '"' :: (written ++ '"' :: tail) := by
    simp [Token.text]
  have hlen : written.length < (written ++ '"' :: tail).length + 1 := by
    rw [List.length_append]
    omega
  have hend (p q : Position) := stringBody_closed p .start ⟨written ++ '"' :: tail, q⟩
    ⟨written ++ ['"'], .start⟩ hv rfl rfl hlen (Nat.lt_succ_self written.length)
  rw [heq, lookString, readString, content?]
  generalize stringBody .start (written.length + 1) _ = y at hend ⊢
  generalize hx : stringBody .start ((written ++ '"' :: tail).length + 1) _ = x
  have hstart := hend .start .start
  rw [hx] at hstart
  cases hstart with
  | ok h h' =>
    refine ⟨?_, rfl⟩
    simp only [Token.text, h, List.length_cons, List.length_append, List.length_nil]
    omega
  | error =>
    -- the error is told for the place where the string begins
    intro p
    have hp := hend p (p.advance '"')
    have herror : ∃ q fault, stringError p (written ++ '"' :: tail) = .lexical q fault := by
      unfold stringError
      generalize stringBody p ((written ++ '"' :: tail).length + 1) _ = z at hp
      cases hp
      exact ⟨_, _, rfl⟩
    obtain ⟨q, fault, herror⟩ := herror
    dsimp only
    rw [herror]
    exact ⟨rfl, rfl⟩

/-- Only a string begins with a quote. -/
theorem head?_text_ne_quote {t : Token} (hv : t.isValid = true) (ht : ∀ written, t ≠ .string written)
    (tail : List Char) : (t.text ++ tail).head? ≠ some '"' := by
  obtain ⟨c, cs, htext, -⟩ := Token.exists_text_eq hv
  have hs := Token.mayStart_of_text hv htext
  rw [htext]
  intro hq
  obtain rfl : c = '"' := Option.some.inj hq
  cases t with
  | string written => exact ht written rfl
  | word letters => exact absurd hs (by decide : ¬Char.isAlpha '"' = true)
  | integer negative digits => exact absurd hs (by decide : ¬('"' == '-' || Char.isDigit '"') = true)
  | bytes digits => exact absurd hs (by decide : ¬('"' == '0') = true)
  | note σ body => exact absurd hs (by cases σ <;> exact Bool.false_ne_true)
  | mark d =>
    obtain rfl : '"' = d := (List.cons.inj htext).1.symm
    exact absurd hv (by decide)

theorem lexical_string : Lexical lookString readString where
  shows := by
    intro t tail hv _
    cases t with
    | string written => exact shows_string hv tail
    | word | integer | bytes | note | mark =>
      rw [lookString_of_ne (head?_text_ne_quote hv (by rintro _ ⟨⟩) tail)]
      exact ⟨rfl, rfl⟩
  atEnd := ⟨rfl, rfl⟩
  sound := by
    intro cs n a h
    unfold lookString at h
    split at h
    · rename_i ds
      split at h
      · rename_i text c hbody
        cases h
        obtain ⟨written, hclosed, hrest, -⟩ := passes_stringBody hbody
        have hds : ds = written ++ ['"'] ++ c.rest := hrest
        refine ⟨.string written, c.rest, ?_, ?_, hclosed, rfl⟩
        · rw [hds]; rfl
        · rw [hds]
          simp [Token.text]
          omega
      · cases h
    · cases h

end Rule

end Michelson
