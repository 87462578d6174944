import Michelson.Proofs.Numerals
import Michelson.Proofs.Strings

/-!
# Escapes

A string is decoded from left to right: a character stands for itself, and a backslash opens
an escape, which is a letter or a code in one of three radices. The code of an escape is held
in 32 bits and grows no further when these are full.

* `Numeral.cappedValue_eq` says what the bound on codes does.
* `Literal.Writes` is the relation between what is written between the quotes and the string,
  and `Literal.Breaks` says how it can go wrong.
* `Literal.Writes.stringBody_eq` and `Literal.Breaks.stringBody_eq` say what the reader makes of
  the two. They leave nothing out: `Literal.ends`.
-/

namespace Michelson

/-! ## Codes -/

namespace Numeral

/-- Numbers that are cut down on the way are cut down in the end. -/
theorem cappedValue_eq (cap : Nat) {radix : Nat} (hr : 1 ≤ radix) (digits : List Char) :
    cappedValue cap radix digits = min cap (value radix digits) := by
  have hstep (n d : Nat) : min cap (min cap (min cap n * radix) + d) = min cap (n * radix + d) := by
    rcases Nat.le_total n cap with hn | hn
    · rw [Nat.min_eq_right hn]
      omega
    · have hcap : cap ≤ cap * radix := Nat.le_mul_of_pos_right cap hr
      have hmul : cap * radix ≤ n * radix := Nat.mul_le_mul_right radix hn
      rw [Nat.min_eq_left hn]
      omega
  have hfold (n : Nat) : digits.foldl
      (fun n c => min cap (min cap (n * radix) + (digit? radix c).getD 0)) (min cap n) =
      min cap (digits.foldl (fun n c => n * radix + (digit? radix c).getD 0) n) := by
    induction digits generalizing n with
    | nil => rfl
    | cons c digits ih => rw [List.foldl_cons, List.foldl_cons, hstep, ih]
  rw [cappedValue, value, ← hfold, Nat.min_zero]

/-- In the decimal system, the digits are those of words. -/
theorem isDigit_ten (c : Char) : isDigit 10 c = c.isDigit := by
  by_cases h : c.isDigit = true
  · rw [isDigit, digit?_of_isDigit h, h, Option.isSome_some]
  · -- letters have values from ten on
    rw [Bool.eq_false_iff.mpr h, isDigit, digit?, if_neg (isDigit_iff_le.not.mp h)]
    split
    · simp
    · split <;> simp

end Numeral

namespace Literal

/-- The character of a code is the one that has the code, so surrogates have none. -/
theorem charOfCode?_eq_some {code : Nat} {ch : Char} :
    charOfCode? code = some ch ↔ ch.toNat = code := by
  rw [charOfCode?]
  split
  · rename_i hvalid
    rw [Option.some_inj]
    constructor
    · rintro rfl
      rw [Char.ofNat, dif_pos hvalid]
      rfl
    · rintro rfl
      exact Char.ofNat_toNat ch
  · rename_i hvalid
    refine ⟨fun hnone => (nomatch hnone), ?_⟩
    rintro rfl
    exact absurd ch.valid hvalid

/-- The bound on codes is above all characters. -/
theorem charOfCode?_capped (code : Nat) : charOfCode? (min codeCap code) = charOfCode? code := by
  rw [charOfCode?, charOfCode?, codeCap]
  rcases Nat.le_total code 0xFFFFFFFF with hle | hge
  · rw [Nat.min_eq_right hle]
  · rw [Nat.min_eq_left hge, if_neg (by decide), if_neg (by omega)]

/-! ## What is written -/

/-- The letters of escapes, and what they stand for. -/
def escapeLetters : List (Char × Char) :=
  [('n', '\n'), ('t', '\t'), ('r', '\r'), ('b', Char.ofNat 8), ('f', Char.ofNat 12),
    ('v', Char.ofNat 11), ('a', Char.ofNat 7), ('\\', '\\'), ('"', '"'), ('\'', '\'')]

/-- The radices of codes. -/
inductive Radix where
  | hex
  | octal
  | decimal

namespace Radix

/-- The number of digits. -/
def base : Radix → Nat
  | hex => 16
  | octal => 8
  | decimal => 10

/-- The letter between the backslash and the digits, if there is one. -/
def letter : Radix → List Char
  | hex => ['x']
  | octal => ['o']
  | decimal => []

end Radix

/-- All the digits of a code, in front of what follows them. -/
structure IsCode (radix : Radix) (digits behind : List Char) : Prop where
  ne_nil : digits ≠ []
  digits : ∀ d ∈ digits, Numeral.isDigit radix.base d = true
  stop : ∀ d, behind.head? = some d → Numeral.isDigit radix.base d = false

/-- What may be written between the quotes for a string. -/
inductive Writes : List Char → List Char → Prop
  | nil : Writes [] []
  | raw {c : Char} {w x : List Char} (hq : c ≠ '"') (hb : c ≠ '\\') (h : Writes w x) :
      Writes (c :: w) (c :: x)
  | letter {e c : Char} {w x : List Char} (hc : (e, c) ∈ escapeLetters) (h : Writes w x) :
      Writes ('\\' :: e :: w) (c :: x)
  | code {radix : Radix} {digits w x : List Char} {c : Char} (hd : IsCode radix digits w)
      (hc : c.toNat = Numeral.value radix.base digits) (h : Writes w x) :
      Writes ('\\' :: (radix.letter ++ (digits ++ w))) (c :: x)

/-- What keeps a string whose quote stands at `start` from going on at `p`, and the error
that it raises. -/
inductive Breaks (start p : Position) : List Char → Error → Prop
  | unclosed : Breaks start p [] (.lexical start .unterminatedString)
  | backslash : Breaks start p ['\\'] (.lexical (p.advance '\\') .unterminatedEscape)
  | unknown {e : Char} {tail : List Char} (hl : ∀ c, (e, c) ∉ escapeLetters) (hx : e ≠ 'x')
      (ho : e ≠ 'o') (hd : e.isDigit = false) :
      Breaks start p ('\\' :: e :: tail) (.lexical (p.advance '\\') (.unknownEscape e))
  | noDigits {radix : Radix} {tail : List Char} (hr : radix.letter ≠ [])
      (hstop : ∀ d, tail.head? = some d → Numeral.isDigit radix.base d = false) :
      Breaks start p ('\\' :: (radix.letter ++ tail))
        (.lexical (p.advance '\\') .escapeWithoutDigits)
  | noCharacter {radix : Radix} {digits tail : List Char} (hd : IsCode radix digits tail)
      (hc : ∀ c : Char, c.toNat ≠ Numeral.value radix.base digits) :
      Breaks start p ('\\' :: (radix.letter ++ (digits ++ tail)))
        (.lexical (p.advance '\\')
          (.noSuchCharacter (min codeCap (Numeral.value radix.base digits))))

/-! ## Escapes -/

section Escapes

open Cursor

variable {radix : Radix} {digits behind : List Char} {c : Cursor}

/-- Every system has a digit. -/
theorem Radix.one_le_base (radix : Radix) : 1 ≤ radix.base := by
  cases radix <;> decide

/-- The letters of escapes are those that the rule knows. -/
theorem mem_escapeLetters {e ch : Char} : (e, ch) ∈ escapeLetters ↔ simpleEscape? e = some ch := by
  constructor
  · intro h
    have hall : ∀ p ∈ escapeLetters, simpleEscape? p.1 = some p.2 := by decide
    exact hall _ h
  · intro h
    unfold simpleEscape? at h
    split at h <;> cases h <;> decide

/-- No digit is a letter of an escape. -/
theorem simpleEscape?_of_isDigit {d : Char} (h : d.isDigit = true) : simpleEscape? d = none := by
  unfold simpleEscape?
  split
  all_goals first | rfl | exact absurd h (by decide)

/-- A radix without a digit behind it is an error, at the place that is handed in. -/
theorem numericEscape_noDigits {base : Nat} (start : Position)
    (hstop : ∀ d, c.rest.head? = some d → Numeral.isDigit base d = false) :
    numericEscape base start c = .error (.lexical start .escapeWithoutDigits) := by
  have htake : c.rest.takeWhile (Numeral.isDigit base) = [] := by
    rw [← List.nil_append c.rest]
    exact takeWhile_append_eq rfl hstop
  rw [numericEscape, htake]
  rfl

/-- The digits are read greedily, and their value decides between a character and an error. -/
theorem numericEscape_digits (h : IsCode radix digits behind) (start : Position)
    (hc : c.rest = digits ++ behind) :
    numericEscape radix.base start c =
      match charOfCode? (Numeral.value radix.base digits) with
      | some ch => .ok (ch, c.skip digits.length)
      | none => .error (.lexical start
          (.noSuchCharacter (min codeCap (Numeral.value radix.base digits)))) := by
  have htake : c.rest.takeWhile (Numeral.isDigit radix.base) = digits := by
    rw [hc]
    exact takeWhile_append_eq (List.all_eq_true.mpr h.digits) h.stop
  have hcode := charOfCode?_capped (Numeral.value radix.base digits)
  rw [numericEscape, htake]
  dsimp only
  rw [if_neg (by simpa using h.ne_nil), Numeral.cappedValue_eq codeCap radix.one_le_base]
  cases hch : charOfCode? (Numeral.value radix.base digits) <;> simp only [hcode, hch]

/-- An escape is decided by the letter behind the backslash, in this order. -/
theorem escape_cons {e : Char} (hc : c.rest = e :: behind) :
    escape c =
      match simpleEscape? e with
      | some ch => .ok (ch, c.skip 1)
      | none =>
        if e = 'x' then numericEscape 16 c.position (c.skip 1)
        else if e = 'o' then numericEscape 8 c.position (c.skip 1)
        else if e.isDigit then numericEscape 10 c.position c
        else .error (.lexical c.position (.unknownEscape e)) := by
  obtain ⟨rest, p⟩ := c
  obtain rfl : rest = e :: behind := hc
  rfl

theorem escape_noDigits (hr : radix.letter ≠ [])
    (hstop : ∀ d, behind.head? = some d → Numeral.isDigit radix.base d = false)
    (hc : c.rest = radix.letter ++ behind) :
    escape c = .error (.lexical c.position .escapeWithoutDigits) := by
  have hskip := rest_skip hc
  cases radix with
  | hex | octal =>
    rw [escape, hc]
    exact numericEscape_noDigits c.position (by rw [← hskip] at hstop; exact hstop)
  | decimal => exact absurd rfl hr

/-- **Codes.** The escape yields the character that has the number for its code, and there is
an error if there is none. -/
theorem escape_code (h : IsCode radix digits behind)
    (hc : c.rest = radix.letter ++ (digits ++ behind)) :
    escape c =
      match charOfCode? (Numeral.value radix.base digits) with
      | some ch => .ok (ch, c.skip (radix.letter ++ digits).length)
      | none => .error (.lexical c.position
          (.noSuchCharacter (min codeCap (Numeral.value radix.base digits)))) := by
  have hskip := rest_skip hc
  rw [List.length_append, skip_add]
  cases radix with
  | hex | octal =>
    rw [escape, hc]
    exact numericEscape_digits h c.position hskip
  | decimal =>
    obtain ⟨d, ds, rfl⟩ := List.exists_cons_of_ne_nil h.ne_nil
    have hd : d.isDigit = true := by
      rw [← Numeral.isDigit_ten]
      exact h.digits d List.mem_cons_self
    have hx : d ≠ 'x' := by
      rintro rfl
      exact absurd hd (by decide)
    have ho : d ≠ 'o' := by
      rintro rfl
      exact absurd hd (by decide)
    rw [escape_cons hc, simpleEscape?_of_isDigit hd]
    dsimp only
    rw [if_neg hx, if_neg ho, if_pos hd]
    exact numericEscape_digits h c.position hc

end Escapes

/-! ## Strings -/

section Body

open Cursor

variable {start : Position} {c : Cursor} {w x tail : List Char}

/-- One character more in front of a string. -/
def prepend (chs : List Char) (reading : Except Error (List Char × Cursor)) :
    Except Error (List Char × Cursor) :=
  reading.map fun ended => (chs ++ ended.1, ended.2)

/-- Characters are put in front in the order in which they are read. -/
theorem prepend_append (chs more : List Char) (reading : Except Error (List Char × Cursor)) :
    prepend (chs ++ more) reading = prepend chs (prepend more reading) := by
  cases reading with
  | error e => rfl
  | ok ended => exact congrArg (fun text => Except.ok (text, ended.2)) (List.append_assoc ..)

/-- A character that is neither a quote nor a backslash stands for itself. -/
theorem stringBody_raw {d : Char} (hc : c.rest = d :: tail) (hq : d ≠ '"') (hb : d ≠ '\\')
    (bound : Nat) :
    stringBody start (bound + 1) c = prepend [d] (stringBody start bound (c.skip 1)) := by
  rw [stringBody, hc]
  dsimp only
  rw [if_neg hq, if_neg hb]
  cases stringBody start bound (c.skip 1) <;> rfl

/-- An escape stands for the character that it decodes to, and is passed as a whole. -/
theorem stringBody_escape {v : List Char} {ch : Char} (hc : c.rest = '\\' :: (v ++ tail))
    (hescape : escape (c.skip 1) = .ok (ch, (c.skip 1).skip v.length)) (bound : Nat) :
    stringBody start (bound + 1) c =
      prepend [ch] (stringBody start bound (c.skip ('\\' :: v).length)) := by
  have hskip : c.skip ('\\' :: v).length = (c.skip 1).skip v.length := by
    rw [List.length_cons, Nat.add_comm, skip_add]
  rw [hskip, stringBody, hc]
  dsimp only
  rw [if_neg (by decide), if_pos rfl, hescape]
  dsimp only
  cases stringBody start bound ((c.skip 1).skip v.length) <;> rfl

/-- An escape with an error ends the string with it. -/
theorem stringBody_error {e : Error} (hc : c.rest = '\\' :: tail)
    (hescape : escape (c.skip 1) = .error e) (bound : Nat) :
    stringBody start (bound + 1) c = .error e := by
  rw [stringBody, hc]
  dsimp only
  rw [if_neg (by decide), if_pos rfl, hescape]

/-- What closes a string or opens an escape. -/
def Stops (tail : List Char) : Prop := ∀ d, tail.head? = some d → d = '"' ∨ d = '\\'

/-- Neither a quote nor a backslash continues a code. -/
theorem IsCode.append {radix : Radix} {digits : List Char} (h : IsCode radix digits w)
    (htail : Stops tail) : IsCode radix digits (w ++ tail) where
  ne_nil := h.ne_nil
  digits := h.digits
  stop := by
    intro d hd
    rcases w with _ | ⟨d', w⟩
    · rcases htail d hd with rfl | rfl <;> simp [Numeral.isDigit, Numeral.digit?]
    · exact h.stop d hd

/-- **What is written is read.** The reader passes what is written for a string and goes on
behind it. -/
theorem Writes.stringBody_eq (h : Writes w x) (htail : Stops tail) :
    ∀ {c : Cursor}, c.rest = w ++ tail → ∀ bound, stringBody start (bound + x.length) c =
      prepend x (stringBody start bound (c.skip w.length)) := by
  induction h with
  | nil =>
    intro c _ bound
    change _ = prepend [] (stringBody start bound c)
    cases hbody : stringBody start bound c <;> rfl
  | @raw d w x hq hb _ ih =>
    intro c hc bound
    have hmore : (c.skip [d].length).rest = w ++ tail := rest_skip hc
    rw [List.length_cons, ← Nat.add_assoc, stringBody_raw hc hq hb,
      show stringBody start _ (c.skip 1) = _ from ih hmore bound, ← skip_add, ← prepend_append,
      ← List.length_append]
    rfl
  | @letter e ch w x hmem _ ih =>
    intro c hc bound
    have hone : (c.skip 1).rest = e :: (w ++ tail) := rest_skip (w := ['\\']) hc
    have hescape : escape (c.skip 1) = .ok (ch, (c.skip 1).skip [e].length) := by
      rw [escape_cons hone, mem_escapeLetters.mp hmem]
      rfl
    have hmore : (c.skip ['\\', e].length).rest = w ++ tail := rest_skip hc
    rw [List.length_cons, ← Nat.add_assoc, stringBody_escape (v := [e]) hc hescape, ih hmore,
      ← skip_add, ← prepend_append, ← List.length_append]
    rfl
  | @code radix digits w x ch hd hch _ ih =>
    intro c hc bound
    have hc' : c.rest = '\\' :: ((radix.letter ++ digits) ++ (w ++ tail)) := by
      rw [hc]
      simp
    have hone : (c.skip 1).rest = radix.letter ++ (digits ++ (w ++ tail)) := by
      rw [← List.append_assoc]
      exact rest_skip (w := ['\\']) hc'
    have hescape : escape (c.skip 1) =
        .ok (ch, (c.skip 1).skip (radix.letter ++ digits).length) := by
      rw [escape_code (hd.append htail) hone, charOfCode?_eq_some.mpr hch]
    have hmore : (c.skip ('\\' :: (radix.letter ++ digits)).length).rest = w ++ tail :=
      rest_skip hc'
    rw [List.length_cons, ← Nat.add_assoc, stringBody_escape hc' hescape, ih hmore, ← skip_add,
      ← prepend_append, ← List.length_append]
    simp

/-- **What breaks a string** stops the reader. -/
theorem Breaks.stringBody_eq {e : Error} (h : Breaks start c.position tail e) (hc : c.rest = tail)
    (bound : Nat) : stringBody start (bound + 1) c = .error e := by
  have hposition {tail : List Char} (hc : c.rest = '\\' :: tail) :
      (c.skip 1).position = c.position.advance '\\' := by
    rw [Cursor.skip_eq, hc]
    rfl
  have hone {tail : List Char} (hc : c.rest = '\\' :: tail) : (c.skip 1).rest = tail :=
    rest_skip (w := ['\\']) hc
  cases h with
  | unclosed => rw [stringBody, hc]
  | backslash =>
    refine stringBody_error hc ?_ bound
    rw [escape, hone hc, ← hposition hc]
  | @unknown e tail hl hx ho hd =>
    have hnone : simpleEscape? e = none :=
      Option.eq_none_iff_forall_ne_some.mpr fun ch hch => hl ch (mem_escapeLetters.mpr hch)
    refine stringBody_error hc ?_ bound
    rw [escape_cons (hone hc), hnone, ← hposition hc]
    dsimp only
    rw [if_neg hx, if_neg ho, if_neg (by rw [hd]; decide)]
  | noDigits hr hstop =>
    refine stringBody_error hc ?_ bound
    rw [escape_noDigits hr hstop (hone hc), hposition hc]
  | noCharacter hd hch =>
    have hnone : charOfCode? _ = none :=
      Option.eq_none_iff_forall_ne_some.mpr fun ch hcode => hch ch (charOfCode?_eq_some.mp hcode)
    refine stringBody_error hc ?_ bound
    rw [escape_code hd (hone hc), hnone, hposition hc]

theorem Breaks.stops {p : Position} {e : Error} (h : Breaks start p tail e) : Stops tail := by
  intro d hd
  cases h with
  | unclosed => cases hd
  | backslash | unknown | noDigits | noCharacter => exact .inr (Option.some.inj hd).symm

/-- Each character is written with one character at least, so the length of the text is bound
enough. -/
theorem Writes.length_le (h : Writes w x) : x.length ≤ w.length := by
  induction h with
  | nil => exact le_rfl
  | raw | letter => simp only [List.length_cons]; omega
  | code => simp only [List.length_cons, List.length_append]; omega

/-- The whole body of a string, up to the quote that closes it. -/
theorem Writes.stringBody_closed (h : Writes w x) (hc : c.rest = w ++ '"' :: tail) {bound : Nat}
    (hbound : x.length < bound) :
    stringBody start bound c = .ok (x, c.skip (w ++ ['"']).length) := by
  have hstops : Stops ('"' :: tail) := fun d hd => .inl (Option.some.inj hd).symm
  obtain ⟨bound, rfl⟩ : ∃ n, bound = n + 1 + x.length := ⟨bound - 1 - x.length, by omega⟩
  rw [h.stringBody_eq hstops hc, stringBody, rest_skip hc, List.length_append, skip_add]
  dsimp only
  rw [if_pos rfl, prepend, Except.map, List.append_nil]
  rfl

theorem Writes.stringBody_broken {e : Error} (h : Writes w x)
    (hb : Breaks start (c.position.after w) tail e) (hc : c.rest = w ++ tail) {bound : Nat}
    (hbound : x.length < bound) : stringBody start bound c = .error e := by
  obtain ⟨bound, rfl⟩ : ∃ n, bound = n + 1 + x.length := ⟨bound - 1 - x.length, by omega⟩
  rw [← (passes_skip hc).2] at hb
  rw [h.stringBody_eq hb.stops hc, hb.stringBody_eq (rest_skip hc)]
  rfl

/-- No quote in what is written ends the string. -/
theorem Writes.isClosed (h : Writes w x) : Token.isClosed w = true := by
  induction h with
  | nil => rfl
  | raw hq hb _ ih => rwa [isClosed_cons hb hq]
  | letter _ _ ih => rwa [isClosed_backslash]
  | @code radix digits w x ch hd _ _ ih =>
    have hall : digits.all (Numeral.isDigit radix.base) = true := List.all_eq_true.mpr hd.digits
    cases radix with
    | hex | octal =>
      exact (isClosed_backslash _ _).trans ((isClosed_digits hall).trans ih)
    | decimal =>
      obtain ⟨d, ds, rfl⟩ := List.exists_cons_of_ne_nil hd.ne_nil
      refine (isClosed_backslash d (ds ++ w)).trans ?_
      rw [List.all_cons, Bool.and_eq_true] at hall
      rwa [isClosed_digits hall.2]

theorem Writes.content?_eq (h : Writes w x) : content? w = some x := by
  rw [content?, h.stringBody_closed (c := ⟨w ++ ['"'], .start⟩) rfl (Nat.lt_succ_of_le h.length_le)]

end Body

/-! ## Nothing is left out -/

section Total

variable {ds : List Char}

/-- A text is what is written for some string, up to a quote or up to a fault. -/
def Ends (ds : List Char) : Prop :=
  ∃ w x tail, ds = w ++ tail ∧ Writes w x ∧
    ((∃ behind, tail = '"' :: behind) ∨ ∀ start p, ∃ e, Breaks start p tail e)

theorem Ends.of_breaks (h : ∀ start p, ∃ e, Breaks start p ds e) : Ends ds :=
  ⟨[], [], ds, rfl, .nil, .inr h⟩

/-- One character more is written in front. -/
theorem Ends.prepend {v : List Char} {c : Char} (h : Ends ds)
    (hv : ∀ w x tail, ds = w ++ tail → Writes w x → Writes (v ++ w) (c :: x)) : Ends (v ++ ds) := by
  obtain ⟨w, x, tail, rfl, hw, hend⟩ := h
  exact ⟨v ++ w, c :: x, tail, (List.append_assoc v w tail).symm, hv w x tail rfl hw, hend⟩

/-- Behind the letter of a radix, or at a digit, a code is read or found to be faulty. -/
theorem ends_code (radix : Radix)
    (h : radix.letter ≠ [] ∨ ∃ d, ds.head? = some d ∧ Numeral.isDigit radix.base d = true)
    (ih : ∀ ds' : List Char, ds'.length ≤ ds.length → Ends ds') :
    Ends ('\\' :: (radix.letter ++ ds)) := by
  have hsplit := List.takeWhile_append_dropWhile (p := Numeral.isDigit radix.base) (l := ds)
  have hstop : ∀ d, (ds.dropWhile (Numeral.isDigit radix.base)).head? = some d →
      Numeral.isDigit radix.base d = false := fun d hd => by
    have hnot := List.head?_dropWhile_not (Numeral.isDigit radix.base) ds
    rw [hd] at hnot
    simpa using hnot
  have hdigits : ∀ d ∈ ds.takeWhile (Numeral.isDigit radix.base),
      Numeral.isDigit radix.base d = true := fun d hd => List.mem_takeWhile_imp hd
  generalize ds.takeWhile (Numeral.isDigit radix.base) = digits at hsplit hdigits
  generalize ds.dropWhile (Numeral.isDigit radix.base) = behind at hsplit hstop
  subst hsplit
  rcases eq_or_ne digits [] with rfl | hne
  · -- without digits there is a letter, and it breaks the string
    have hletter : radix.letter ≠ [] := h.resolve_right fun ⟨d, hd, hdigit⟩ => by
      rw [hstop d hd] at hdigit
      cases hdigit
    exact .of_breaks fun start p => ⟨_, .noDigits hletter hstop⟩
  · have hcode : IsCode radix digits behind := ⟨hne, hdigits, hstop⟩
    rcases hch : charOfCode? (Numeral.value radix.base digits) with _ | ch
    · refine .of_breaks fun start p => ⟨_, .noCharacter hcode fun c hc => ?_⟩
      rw [charOfCode?_eq_some.mpr hc] at hch
      cases hch
    · have hmore := ih behind (List.sublist_append_right digits behind).length_le
      have hends := hmore.prepend (v := '\\' :: (radix.letter ++ digits)) (c := ch)
        fun w x tail hw hwrites => by
          have hcode' : IsCode radix digits w := by
            refine ⟨hne, hdigits, fun d hd => hstop d ?_⟩
            rw [hw, List.head?_append, hd]
            rfl
          simpa using Writes.code hcode' (charOfCode?_eq_some.mp hch) hwrites
      simpa using hends

theorem ends (ds : List Char) : Ends ds := by
  induction hn : ds.length using Nat.strongRecOn generalizing ds with
  | ind n ih =>
    subst hn
    rcases ds with _ | ⟨d, ds⟩
    · exact .of_breaks fun start p => ⟨_, .unclosed⟩
    · have hmore {ds' : List Char} (h : ds'.length ≤ ds.length) : Ends ds' :=
        ih ds'.length (Nat.lt_succ_of_le h) ds' rfl
      by_cases hq : d = '"'
      · subst hq
        exact ⟨[], [], _, rfl, .nil, .inl ⟨ds, rfl⟩⟩
      · by_cases hb : d = '\\'
        · subst hb
          rcases ds with _ | ⟨e, ds⟩
          · exact .of_breaks fun start p => ⟨_, .backslash⟩
          · have hbehind {ds' : List Char} (h : ds'.length ≤ ds.length) : Ends ds' :=
              hmore (h.trans (Nat.le_succ _))
            rcases hletter : simpleEscape? e with _ | ch
            · by_cases hx : e = 'x'
              · subst hx
                exact ends_code .hex (.inl (by decide)) fun _ => hbehind
              · by_cases ho : e = 'o'
                · subst ho
                  exact ends_code .octal (.inl (by decide)) fun _ => hbehind
                · by_cases hd : e.isDigit = true
                  · -- nothing is passed before the code, whose first digit this is
                    refine ends_code .decimal (.inr ⟨e, rfl, ?_⟩) fun _ => hmore
                    exact (Numeral.isDigit_ten e).trans hd
                  · refine .of_breaks fun start p => ⟨_, .unknown (fun c hc => ?_) hx ho ?_⟩
                    · rw [mem_escapeLetters.mp hc] at hletter
                      cases hletter
                    · simpa using hd
            · exact (hbehind le_rfl).prepend (v := ['\\', e]) fun w x tail _ hw =>
                .letter (mem_escapeLetters.mpr hletter) hw
        · exact (hmore le_rfl).prepend (v := [d]) fun w x tail _ hw => .raw hq hb hw

end Total

end Literal

end Michelson
