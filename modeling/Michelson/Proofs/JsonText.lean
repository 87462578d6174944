import Mathlib.Data.Bool.AllAny
import Michelson.Json.Reader
import Michelson.Json.Writer
import Michelson.Proofs.Numerals

/-!
# Documents are read back from their text

The compact and the pretty form of a document differ in blanks only. `written` has
the blanks as a parameter, and both forms are instances of it, so that one
induction over documents shows that the reader inverts the writer.

Two kinds of documents are left out: numbers that are no integers, and strings that
denote no text. The trees of the language have no such documents.

* `Json.IsPlain` says which documents are meant.
* `readChars_escaped` is the step for strings, `readNumber_written` for integers.
* `parse_compact` and `parse_pretty` are the conclusions.
-/

namespace Michelson.Json

/-! ## Strings -/

/-- The characters that have an escape of their own. -/
theorem escapeChar_ofNat (n : Nat) (h : n < 0x20) (bound : Nat) (rest : List Char) :
    readChars (bound + 1) (escapeChar (Char.ofNat n) ++ rest) = (do
      let (chs, rest') ← readChars bound rest
      some (consChar (some (Char.ofNat n)) chs, rest')) := by
  interval_cases n <;> rfl

/-- **A character is read back from its escape.** -/
theorem readChars_escaped (c : Char) (bound : Nat) (rest : List Char) :
    readChars (bound + 1) (escapeChar c ++ rest) = (do
      let (chs, rest') ← readChars bound rest
      some (consChar (some c) chs, rest')) := by
  by_cases hlow : c.toNat < 0x20
  · have h := escapeChar_ofNat c.toNat hlow bound rest
    rwa [Char.ofNat_toNat] at h
  · by_cases hq : c = '"'
    · subst hq
      rfl
    · by_cases hb : c = '\\'
      · subst hb
        rfl
      · -- any other character is written as it is
        have hesc : escapeChar c = [c] := by
          unfold escapeChar
          rw [if_neg hq, if_neg hb, if_neg (by omega), if_neg (by omega), if_neg (by omega),
            if_neg (by omega), if_neg (by omega), if_neg hlow]
        rw [hesc, List.singleton_append]
        have hor : ¬(c.toNat < 0x20 ∨ c = '\\') := not_or.mpr ⟨hlow, hb⟩
        rw [readChars.eq_def]
        dsimp only
        split
        · rename_i h
          cases h
        · rename_i h
          exact absurd (List.cons.inj h).1 hq
        · rename_i h
          exact absurd (List.cons.inj h).1 hb
        · rename_i h
          exact absurd (List.cons.inj h).1 hb
        · rename_i h
          obtain ⟨rfl, rfl⟩ := List.cons.inj h
          rw [if_neg hor]

/-- The characters of a string are read back behind its opening quote. -/
theorem readChars_written (cs : List Char) (bound : Nat) (h : cs.length < bound)
    (rest : List Char) :
    readChars bound (cs.flatMap escapeChar ++ '"' :: rest) = some (some cs, rest) := by
  obtain ⟨bound, rfl⟩ : ∃ n, bound = n + 1 := ⟨bound - 1, by omega⟩
  induction cs generalizing bound with
  | nil => rfl
  | cons c cs ih =>
    obtain ⟨bound, rfl⟩ : ∃ n, bound = n + 1 := ⟨bound - 1, by simp at h; omega⟩
    rw [List.flatMap_cons, List.append_assoc, readChars_escaped,
      ih bound (by simpa using h)]
    rfl

theorem length_le_escaped (cs : List Char) : cs.length ≤ (cs.flatMap escapeChar).length := by
  induction cs with
  | nil => simp
  | cons c cs ih =>
    have hpos : 0 < (escapeChar c).length := by
      unfold escapeChar
      split_ifs <;> simp
    rw [List.flatMap_cons, List.length_append, List.length_cons]
    omega

/-- **A string is read back behind its opening quote.** -/
theorem readString_written (s : String) (rest : List Char) :
    readString (s.toList.flatMap escapeChar ++ '"' :: rest) = some (some s, rest) := by
  have hlen := length_le_escaped s.toList
  rw [readString, readChars_written s.toList _ (by rw [List.length_append]; omega)]
  simp

/-! ## Numbers -/

/-- The text goes on in a way that ends a number. -/
def EndsNumber (rest : List Char) : Prop :=
  ∀ c, rest.head? = some c → c.isDigit = false ∧ c ≠ '.' ∧ c ≠ 'e' ∧ c ≠ 'E'

/-- What follows a number is neither a fraction nor an exponent. -/
theorem EndsNumber.reads {rest : List Char} (h : EndsNumber rest) :
    readFraction rest = some ([], rest) ∧ readExponent rest = some ([], rest) := by
  cases rest with
  | nil => exact ⟨rfl, rfl⟩
  | cons c rest =>
    obtain ⟨-, hdot, he, hE⟩ := h c rfl
    constructor
    · rw [readFraction]
      rintro rest' hrest
      exact hdot (List.cons.inj hrest).1
    · rw [readExponent.eq_def]
      exact if_neg (not_or.mpr ⟨he, hE⟩)

theorem readUnsigned_written (negative : Bool) (n : Nat) (hn : ¬(negative = true ∧ n = 0))
    {rest : List Char} (h : EndsNumber rest) :
    readUnsigned negative (Numeral.decimal n ++ rest) =
      some (.integer (if negative then -(n : Int) else n), rest) := by
  have htake := takeWhile_append_eq (Numeral.isDigit_decimal n) fun c hc => (h c hc).1
  have hdigits : readDigits (Numeral.decimal n ++ rest) = some (Numeral.decimal n, rest) := by
    rw [readDigits, htake, List.drop_left]
    exact if_neg (by simpa using Numeral.decimal_ne_nil n)
  have hzero : ¬((Numeral.decimal n).length > 1 ∧ (Numeral.decimal n).head? = some '0') :=
    fun hlong => Numeral.decimal_head n hlong.1 hlong.2
  obtain ⟨hfraction, hexponent⟩ := h.reads
  simp only [readUnsigned, hdigits, Option.bind_eq_bind, Option.bind_some]
  rw [if_neg hzero]
  simp only [hfraction, hexponent, Option.bind_some, Numeral.value_decimal, List.isEmpty_nil,
    true_and]
  rw [if_pos hn]

/-- An integer begins with a minus sign or a digit. -/
theorem exists_signedDecimal (z : Int) :
    ∃ c cs, Numeral.signedDecimal z = c :: cs ∧ (c = '-' ∨ c.isDigit = true) := by
  cases z with
  | ofNat n =>
    obtain ⟨c, cs, hcs⟩ := List.exists_cons_of_ne_nil (Numeral.decimal_ne_nil n)
    have hall := Numeral.isDigit_decimal n
    rw [hcs, List.all_cons, Bool.and_eq_true] at hall
    exact ⟨c, cs, hcs, .inr hall.1⟩
  | negSucc n => exact ⟨_, _, rfl, .inl rfl⟩

/-- A digit is no minus sign. -/
theorem readNumber_of_isDigit {c : Char} (hc : c.isDigit = true) (cs : List Char) :
    readNumber (c :: cs) = readUnsigned false (c :: cs) := by
  rw [readNumber]
  rintro cs' h
  obtain ⟨rfl, -⟩ := List.cons.inj h
  simp at hc

/-- **An integer is read back.** -/
theorem readNumber_written (z : Int) {rest : List Char} (h : EndsNumber rest) :
    readNumber (Numeral.signedDecimal z ++ rest) = some (.integer z, rest) := by
  cases z with
  | ofNat n =>
    have hread := readUnsigned_written false n (by simp) h
    obtain ⟨c, cs, hcs⟩ := List.exists_cons_of_ne_nil (Numeral.decimal_ne_nil n)
    have hall := Numeral.isDigit_decimal n
    rw [hcs, List.all_cons, Bool.and_eq_true] at hall
    rw [Numeral.signedDecimal, hcs, List.cons_append, readNumber_of_isDigit hall.1]
    rwa [hcs, List.cons_append] at hread
  | negSucc n =>
    have hread := readUnsigned_written true (n + 1) (by simp) h
    exact hread

/-! ## Layouts -/

/-- How a document is laid out: what stands before each item and member on a level, and
what stands after a colon. -/
structure Layout where
  line : Nat → List Char
  space : List Char

namespace Layout

/-- No blanks at all. -/
def tight : Layout := ⟨fun _ => [], []⟩

/-- A line for each item and member. -/
def wide : Layout := ⟨newLine, [' ']⟩

variable (L : Layout)

mutual

/-- A document in a layout, at an indentation level. -/
def written (level : Nat) : Json → List Char
  | .null => ['n', 'u', 'l', 'l']
  | .bool true => ['t', 'r', 'u', 'e']
  | .bool false => ['f', 'a', 'l', 's', 'e']
  | .integer z => Numeral.signedDecimal z
  | .real literal => literal.toList
  | .string s => quoteOrLone s
  | .array [] => ['[', ']']
  | .array (x :: xs) =>
    '[' :: (L.line (level + 1) ++ (written (level + 1) x ++ writtenItems level xs))
  | .object [] => ['{', '}']
  | .object ((k, v) :: ms) =>
    '{' :: (L.line (level + 1) ++ (quoteOrLone k ++ ':' :: (L.space ++
      (written (level + 1) v ++ writtenMembers level ms))))

/-- The items of an array after the first. -/
def writtenItems (level : Nat) : List Json → List Char
  | [] => L.line level ++ [']']
  | x :: xs => ',' :: (L.line (level + 1) ++ (written (level + 1) x ++ writtenItems level xs))

/-- The members of an object after the first. -/
def writtenMembers (level : Nat) : List (Option String × Json) → List Char
  | [] => L.line level ++ ['}']
  | (k, v) :: ms =>
    ',' :: (L.line (level + 1) ++ (quoteOrLone k ++ ':' :: (L.space ++
      (written (level + 1) v ++ writtenMembers level ms))))

end

mutual

/-- The compact form has no blanks. -/
theorem written_tight (level : Nat) : ∀ j, tight.written level j = compactChars j
  | .null => rfl
  | .bool true => rfl
  | .bool false => rfl
  | .integer _ => rfl
  | .real _ => rfl
  | .string _ => rfl
  | .array [] => rfl
  | .array (x :: xs) => by
    rw [written, compactChars, written_tight (level + 1) x, writtenItems_tight level xs]
    rfl
  | .object [] => rfl
  | .object ((k, v) :: ms) => by
    rw [written, compactChars, written_tight (level + 1) v, writtenMembers_tight level ms]
    rfl

theorem writtenItems_tight (level : Nat) : ∀ js, tight.writtenItems level js = compactItems js
  | [] => rfl
  | x :: xs => by
    rw [writtenItems, compactItems, written_tight (level + 1) x, writtenItems_tight level xs]
    rfl

theorem writtenMembers_tight (level : Nat) :
    ∀ ms, tight.writtenMembers level ms = compactMembers ms
  | [] => rfl
  | (k, v) :: ms => by
    rw [writtenMembers, compactMembers, written_tight (level + 1) v, writtenMembers_tight level ms]
    rfl

end

mutual

/-- The pretty form has a line for each item and member. -/
theorem written_wide (level : Nat) : ∀ j, wide.written level j = prettyChars level j
  | .null => rfl
  | .bool true => rfl
  | .bool false => rfl
  | .integer _ => rfl
  | .real _ => rfl
  | .string _ => rfl
  | .array [] => rfl
  | .array (x :: xs) => by
    rw [written, prettyChars, written_wide (level + 1) x, writtenItems_wide level xs,
      List.append_assoc]
    rfl
  | .object [] => rfl
  | .object ((k, v) :: ms) => by
    rw [written, prettyChars, written_wide (level + 1) v, writtenMembers_wide level ms,
      List.append_assoc]
    rfl

theorem writtenItems_wide (level : Nat) : ∀ js, wide.writtenItems level js = prettyItems level js
  | [] => rfl
  | x :: xs => by
    rw [writtenItems, prettyItems, written_wide (level + 1) x, writtenItems_wide level xs,
      List.append_assoc]
    rfl

theorem writtenMembers_wide (level : Nat) :
    ∀ ms, wide.writtenMembers level ms = prettyMembers level ms
  | [] => rfl
  | (k, v) :: ms => by
    rw [writtenMembers, prettyMembers, written_wide (level + 1) v, writtenMembers_wide level ms,
      List.append_assoc]
    rfl

end

end Layout

/-! ## Documents -/

mutual

/-- Numbers are integers, and strings denote texts. -/
def IsPlain : Json → Prop
  | .null => True
  | .bool _ => True
  | .integer _ => True
  | .real _ => False
  | .string s => s.isSome = true
  | .array items => ArePlain items
  | .object members => ArePlainMembers members

/-- The documents are plain. -/
def ArePlain : List Json → Prop
  | [] => True
  | j :: js => IsPlain j ∧ ArePlain js

/-- The keys denote texts, and the documents are plain. -/
def ArePlainMembers : List (Option String × Json) → Prop
  | [] => True
  | (k, j) :: ms => k.isSome = true ∧ IsPlain j ∧ ArePlainMembers ms

end

/-- The characters that stand between tokens. -/
def blanks : List Char := [' ', '\t', '\n', '\r']

/-- The text consists of blanks. -/
def AreBlank (gap : List Char) : Prop := ∀ c ∈ gap, c ∈ blanks

theorem areBlank_nil : AreBlank [] := fun _ h => nomatch h

theorem skipBlanks_append {gap : List Char} (h : AreBlank gap) (cs : List Char) :
    skipBlanks (gap ++ cs) = skipBlanks cs := by
  rw [skipBlanks, List.dropWhile_append_of_pos fun c hc => ?_]
  · rfl
  · have hmem := h c hc
    simpa [blanks, or_assoc] using hmem

theorem skipBlanks_cons {c : Char} (h : c ∉ blanks) (cs : List Char) :
    skipBlanks (c :: cs) = c :: cs := by
  rw [skipBlanks, List.dropWhile_cons_of_neg]
  simpa [blanks, or_assoc] using h

theorem skipBlanks_token {gap : List Char} (hg : AreBlank gap) {c : Char} (hc : c ∉ blanks)
    (cs : List Char) : skipBlanks (gap ++ c :: cs) = c :: cs := by
  rw [skipBlanks_append hg, skipBlanks_cons hc]

/-- After blanks or directly, a comma or a closing bracket ends a number. -/
theorem endsNumber_append {gap : List Char} (hg : AreBlank gap) {c : Char}
    (hc : c ∈ [',', ']', '}']) (cs : List Char) : EndsNumber (gap ++ c :: cs) := by
  have hends : ∀ d ∈ blanks ++ [',', ']', '}'],
      d.isDigit = false ∧ d ≠ '.' ∧ d ≠ 'e' ∧ d ≠ 'E' :=
    List.all_iff_forall_prop.mp (by decide)
  intro d hd
  refine hends d (List.mem_append.mpr ?_)
  cases gap with
  | nil =>
    obtain rfl := Option.some.inj hd
    exact .inr hc
  | cons b gap =>
    obtain rfl := Option.some.inj hd
    exact .inl (hg b List.mem_cons_self)

theorem readValue_blanks {gap : List Char} (h : AreBlank gap) (bound : Nat) (cs : List Char) :
    readValue bound (gap ++ cs) = readValue bound cs := by
  cases bound with
  | zero => rfl
  | succ bound => simp only [readValue, skipBlanks_append h]

theorem readItems_blanks {gap : List Char} (h : AreBlank gap) (bound : Nat) (cs : List Char) :
    readItems bound (gap ++ cs) = readItems bound cs := by
  cases bound with
  | zero => rfl
  | succ bound => rw [readItems, readItems, readValue_blanks h]

theorem readMembers_blanks {gap : List Char} (h : AreBlank gap) (bound : Nat) (cs : List Char) :
    readMembers bound (gap ++ cs) = readMembers bound cs := by
  cases bound with
  | zero => rfl
  | succ bound => simp only [readMembers, skipBlanks_append h]

/-- An array that goes on with an item. -/
theorem readValue_array {bound : Nat} {rest cs : List Char} {c : Char}
    (h : skipBlanks rest = c :: cs) (hc : c ≠ ']') {items : List Json} {rest' : List Char}
    (hitems : readItems bound (c :: cs) = some (items, rest')) :
    readValue (bound + 1) ('[' :: rest) = some (.array items, rest') := by
  rw [readValue.eq_def]
  have hopen : skipBlanks ('[' :: rest) = '[' :: rest := skipBlanks_cons (by decide) rest
  simp only [hopen, h]
  split
  · rename_i heq
    exact absurd (List.cons.inj heq).1 hc
  · rw [hitems]
    rfl

/-- An object that goes on with a member. -/
theorem readValue_object {bound : Nat} {rest cs : List Char} {c : Char}
    (h : skipBlanks rest = c :: cs) (hc : c ≠ '}') {members : List (Option String × Json)}
    {rest' : List Char} (hmembers : readMembers bound (c :: cs) = some (members, rest')) :
    readValue (bound + 1) ('{' :: rest) = some (.object members, rest') := by
  rw [readValue.eq_def]
  have hopen : skipBlanks ('{' :: rest) = '{' :: rest := skipBlanks_cons (by decide) rest
  simp only [hopen, h]
  split
  · rename_i heq
    exact absurd (List.cons.inj heq).1 hc
  · rw [hmembers]
    rfl

/-- A member, behind its key. -/
theorem readMembers_key (bound : Nat) (k : String) (rest : List Char) :
    readMembers (bound + 1) (quote k ++ ':' :: rest) = (do
      let (j, rest) ← readValue bound rest
      match skipBlanks rest with
      | ',' :: rest' => do
        let (ms, rest'') ← readMembers bound rest'
        some ((some k, j) :: ms, rest'')
      | '}' :: rest' => some ([(some k, j)], rest')
      | _ => none) := by
  have htext : quote k ++ ':' :: rest = '"' :: (k.toList.flatMap escapeChar ++ '"' :: ':' :: rest) := by
    simp [quote]
  have hopen : ∀ cs, skipBlanks ('"' :: cs) = '"' :: cs := skipBlanks_cons (by decide)
  have hcolon : ∀ cs, skipBlanks (':' :: cs) = ':' :: cs := skipBlanks_cons (by decide)
  have hread := readMembers.eq_2 ('"' :: (k.toList.flatMap escapeChar ++ '"' :: ':' :: rest)) bound
  simp only [hopen, hcolon, readString_written, Option.bind_eq_bind, Option.bind_some] at hread
  rw [htext]
  exact hread

/-- A document that begins with a digit or a minus sign is a number. -/
theorem readValue_number {bound : Nat} {c : Char} {cs : List Char}
    (hc : c = '-' ∨ c.isDigit = true) :
    readValue (bound + 1) (c :: cs) = readNumber (c :: cs) := by
  have hother : ∀ d ∈ blanks ++ ['"', '[', '{', 'n', 't', 'f'], d ≠ '-' ∧ d.isDigit = false :=
    List.all_iff_forall_prop.mp (by decide)
  have hne {d : Char} (hd : d ∈ blanks ++ ['"', '[', '{', 'n', 't', 'f']) : c ≠ d := by
    rintro rfl
    obtain ⟨hm, hn⟩ := hother c hd
    rcases hc with hc | hc
    · exact hm hc
    · rw [hn] at hc
      cases hc
  have hskip : skipBlanks (c :: cs) = c :: cs :=
    skipBlanks_cons (fun hb => hne (List.mem_append_left _ hb) rfl) cs
  rw [readValue.eq_def]
  dsimp only
  rw [hskip]
  split
  all_goals first
    | rfl
    | (rename_i heq; exact absurd (List.cons.inj heq).1 (hne (by decide)))

namespace Layout

/-- The layout adds blanks only. -/
structure IsBlank (L : Layout) : Prop where
  line (level : Nat) : AreBlank (L.line level)
  space : AreBlank L.space

theorem isBlank_tight : tight.IsBlank := ⟨fun _ _ h => (nomatch h), fun _ h => (nomatch h)⟩

theorem isBlank_wide : wide.IsBlank where
  line level c hc := by
    rcases List.mem_cons.mp hc with rfl | hc
    · decide
    · rw [List.eq_of_mem_replicate hc]
      decide
  space c hc := by
    rw [List.mem_singleton.mp hc]
    decide

variable {L : Layout} (hL : L.IsBlank)

/-- The first character of a document is neither a blank nor a closing bracket. -/
theorem written_head (level : Nat) {j : Json} (h : j.IsPlain) :
    ∃ c cs, L.written level j = c :: cs ∧ c ∉ blanks ∧ c ≠ ']' := by
  cases j with
  | null => exact ⟨_, _, rfl, by decide, by decide⟩
  | bool b => cases b <;> exact ⟨_, _, rfl, by decide, by decide⟩
  | integer z =>
    obtain ⟨c, cs, hcs, hc⟩ := exists_signedDecimal z
    have hother : ∀ d ∈ blanks ++ [']'], ¬(d = '-' ∨ d.isDigit = true) :=
      List.all_iff_forall_prop.mp (by decide)
    refine ⟨c, cs, hcs, fun hb => hother c (List.mem_append_left _ hb) hc, ?_⟩
    rintro rfl
    exact hother _ (by decide) hc
  | real literal => cases h
  | string s =>
    cases s with
    | some s => exact ⟨_, _, rfl, by decide, by decide⟩
    | none => cases h
  | array items => cases items <;> exact ⟨_, _, rfl, by decide, by decide⟩
  | object members =>
    cases members with
    | nil => exact ⟨_, _, rfl, by decide, by decide⟩
    | cons m ms =>
      obtain ⟨k, v⟩ := m
      exact ⟨_, _, rfl, by decide, by decide⟩

include hL

/-- What stands after an item ends a number. -/
theorem endsNumber_writtenItems (level : Nat) (js : List Json) (rest : List Char) :
    EndsNumber (L.writtenItems level js ++ rest) := by
  cases js with
  | nil =>
    rw [writtenItems, List.append_assoc]
    exact endsNumber_append (hL.line level) (by decide) _
  | cons j js => exact endsNumber_append areBlank_nil (by decide) _

theorem endsNumber_writtenMembers (level : Nat) (ms : List (Option String × Json))
    (rest : List Char) : EndsNumber (L.writtenMembers level ms ++ rest) := by
  cases ms with
  | nil =>
    rw [writtenMembers, List.append_assoc]
    exact endsNumber_append (hL.line level) (by decide) _
  | cons m ms =>
    obtain ⟨k, v⟩ := m
    exact endsNumber_append areBlank_nil (by decide) _

/-- The reader inverts the writer with the given number of calls left. For a document two
calls are asked for each character but the first, and for the items and members behind a
bracket two for each character. -/
structure ReadsBack (L : Layout) (bound : Nat) : Prop where
  value (level : Nat) (j : Json) (rest : List Char) : j.IsPlain → EndsNumber rest →
    2 * (L.written level j).length ≤ bound + 1 →
      readValue bound (L.written level j ++ rest) = some (j, rest)
  items (level : Nat) (x : Json) (xs : List Json) (rest : List Char) : x.IsPlain → ArePlain xs →
    2 * (L.written (level + 1) x ++ L.writtenItems level xs).length ≤ bound →
      readItems bound (L.written (level + 1) x ++ (L.writtenItems level xs ++ rest)) =
        some (x :: xs, rest)
  members (level : Nat) (k : String) (v : Json) (ms : List (Option String × Json))
    (rest : List Char) : v.IsPlain → ArePlainMembers ms →
    2 * (quote k ++ ':' :: (L.space ++
      (L.written (level + 1) v ++ L.writtenMembers level ms))).length ≤ bound →
      readMembers bound (quote k ++ ':' :: (L.space ++
          (L.written (level + 1) v ++ (L.writtenMembers level ms ++ rest)))) =
        some ((some k, v) :: ms, rest)

variable {bound : Nat}

omit hL in
theorem readValue_written_string (level : Nat) (s : String) (rest : List Char) :
    readValue (bound + 1) (L.written level (.string (some s)) ++ rest) =
      some (.string (some s), rest) := by
  have hread := readString_written s rest
  have htext : L.written level (.string (some s)) ++ rest =
      '"' :: (s.toList.flatMap escapeChar ++ '"' :: rest) := by
    simp [written, quoteOrLone, quote]
  have hopen : ∀ cs, skipBlanks ('"' :: cs) = '"' :: cs := skipBlanks_cons (by decide)
  rw [htext]
  simp only [readValue, hopen, hread, Option.bind_eq_bind, Option.bind_some]

theorem ReadsBack.array_succ (ih : L.ReadsBack bound) (level : Nat) {x : Json} {xs : List Json}
    (rest : List Char) (hx : x.IsPlain) (hxs : ArePlain xs)
    (hb : 2 * (L.written level (.array (x :: xs))).length ≤ bound + 1 + 1) :
    readValue (bound + 1) (L.written level (.array (x :: xs)) ++ rest) =
      some (.array (x :: xs), rest) := by
  simp only [written, List.length_cons, List.length_append] at hb
  have hitems := ih.items level x xs rest hx hxs (by rw [List.length_append]; omega)
  obtain ⟨c, cs, hcs, hblank, hclose⟩ := written_head (L := L) (level + 1) hx
  have htext : L.written level (.array (x :: xs)) ++ rest =
      '[' :: (L.line (level + 1) ++ c :: (cs ++ (L.writtenItems level xs ++ rest))) := by
    rw [written, hcs]
    simp
  rw [hcs, List.cons_append] at hitems
  rw [htext]
  exact readValue_array (skipBlanks_token (hL.line _) hblank _) hclose hitems

theorem ReadsBack.object_succ (ih : L.ReadsBack bound) (level : Nat) {k : String} {v : Json}
    {ms : List (Option String × Json)} (rest : List Char) (hv : v.IsPlain) (hms : ArePlainMembers ms)
    (hb : 2 * (L.written level (.object ((some k, v) :: ms))).length ≤ bound + 1 + 1) :
    readValue (bound + 1) (L.written level (.object ((some k, v) :: ms)) ++ rest) =
      some (.object ((some k, v) :: ms), rest) := by
  simp only [written, quoteOrLone, List.length_cons, List.length_append] at hb
  have hmembers := ih.members level k v ms rest hv hms
    (by simp only [List.length_append, List.length_cons]; omega)
  have hquote : quote k = '"' :: (k.toList.flatMap escapeChar ++ ['"']) := rfl
  have htext : L.written level (.object ((some k, v) :: ms)) ++ rest =
      '{' :: (L.line (level + 1) ++ '"' :: (k.toList.flatMap escapeChar ++ ['"'] ++
        ':' :: (L.space ++ (L.written (level + 1) v ++ (L.writtenMembers level ms ++ rest))))) := by
    rw [written, quoteOrLone, hquote]
    simp
  rw [hquote, List.cons_append] at hmembers
  rw [htext]
  exact readValue_object (skipBlanks_token (hL.line _) (by decide) _) (by decide) hmembers

/-- A document is read back if its items and members are. -/
theorem ReadsBack.value_succ (ih : L.ReadsBack bound) (level : Nat) (j : Json)
    (rest : List Char) (h : j.IsPlain) (hr : EndsNumber rest)
    (hb : 2 * (L.written level j).length ≤ bound + 1 + 1) :
    readValue (bound + 1) (L.written level j ++ rest) = some (j, rest) := by
  cases j with
  | null => rfl
  | bool b => cases b <;> rfl
  | integer z =>
    obtain ⟨c, cs, hcs, hc⟩ := exists_signedDecimal z
    have hread := readNumber_written z hr
    rw [written]
    rw [hcs, List.cons_append] at hread ⊢
    rw [readValue_number hc, hread]
  | real literal => cases h
  | string s =>
    cases s with
    | none => cases h
    | some s => exact readValue_written_string level s rest
  | array items =>
    cases items with
    | nil => rfl
    | cons x xs => exact ih.array_succ hL level rest h.1 h.2 hb
  | object members =>
    rcases members with _ | ⟨⟨_ | k, v⟩, ms⟩
    · rfl
    · cases h.1
    · exact ih.object_succ hL level rest h.2.1 h.2.2 hb

/-- Items are read back, with the closing bracket, if the first one and the others are. -/
theorem ReadsBack.items_succ (ih : L.ReadsBack bound) (level : Nat) (x : Json) (xs : List Json)
    (rest : List Char) (hx : x.IsPlain) (hxs : ArePlain xs)
    (hb : 2 * (L.written (level + 1) x ++ L.writtenItems level xs).length ≤ bound + 1) :
    readItems (bound + 1) (L.written (level + 1) x ++ (L.writtenItems level xs ++ rest)) =
      some (x :: xs, rest) := by
  have hends := endsNumber_writtenItems hL level xs rest
  cases xs with
  | nil =>
    simp only [writtenItems, List.length_append, List.length_singleton] at hb
    have hvalue := ih.value (level + 1) x _ hx hends (by omega)
    have hnext : skipBlanks (L.writtenItems level [] ++ rest) = ']' :: rest := by
      rw [writtenItems, List.append_assoc]
      exact skipBlanks_token (hL.line level) (by decide) rest
    simp only [readItems, hvalue, hnext, Option.bind_eq_bind, Option.bind_some]
  | cons y ys =>
    simp only [writtenItems, List.length_append, List.length_cons] at hb
    have hvalue := ih.value (level + 1) x _ hx hends (by omega)
    have hitems := ih.items level y ys rest hxs.1 hxs.2 (by rw [List.length_append]; omega)
    rw [← readItems_blanks (hL.line (level + 1))] at hitems
    have hnext : skipBlanks (L.writtenItems level (y :: ys) ++ rest) =
        ',' :: (L.line (level + 1) ++
          (L.written (level + 1) y ++ (L.writtenItems level ys ++ rest))) := by
      rw [writtenItems, List.cons_append, skipBlanks_cons (by decide)]
      simp
    simp only [readItems, hvalue, hnext, hitems, Option.bind_eq_bind, Option.bind_some]

/-- Members are read back, with the closing brace, if the first one and the others are. -/
theorem ReadsBack.members_succ (ih : L.ReadsBack bound) (level : Nat) (k : String) (v : Json)
    (ms : List (Option String × Json)) (rest : List Char) (hv : v.IsPlain)
    (hms : ArePlainMembers ms)
    (hb : 2 * (quote k ++ ':' :: (L.space ++
      (L.written (level + 1) v ++ L.writtenMembers level ms))).length ≤ bound + 1) :
    readMembers (bound + 1) (quote k ++ ':' :: (L.space ++
        (L.written (level + 1) v ++ (L.writtenMembers level ms ++ rest)))) =
      some ((some k, v) :: ms, rest) := by
  have hends := endsNumber_writtenMembers hL level ms rest
  rcases ms with _ | ⟨⟨_ | k', v'⟩, ms⟩
  · simp only [writtenMembers, List.length_append, List.length_cons, List.length_nil] at hb
    have hvalue := ih.value (level + 1) v _ hv hends (by omega)
    rw [← readValue_blanks hL.space] at hvalue
    have hnext : skipBlanks (L.writtenMembers level [] ++ rest) = '}' :: rest := by
      rw [writtenMembers, List.append_assoc]
      exact skipBlanks_token (hL.line level) (by decide) rest
    rw [readMembers_key, hvalue]
    simp only [hnext, Option.bind_eq_bind, Option.bind_some]
  · cases hms.1
  · simp only [writtenMembers, quoteOrLone, List.length_append, List.length_cons] at hb
    have hvalue := ih.value (level + 1) v _ hv hends (by omega)
    rw [← readValue_blanks hL.space] at hvalue
    have hmembers := ih.members level k' v' ms rest hms.2.1 hms.2.2
      (by simp only [List.length_append, List.length_cons]; omega)
    rw [← readMembers_blanks (hL.line (level + 1))] at hmembers
    have hnext : skipBlanks (L.writtenMembers level ((some k', v') :: ms) ++ rest) =
        ',' :: (L.line (level + 1) ++ (quote k' ++ ':' :: (L.space ++
          (L.written (level + 1) v' ++ (L.writtenMembers level ms ++ rest))))) := by
      rw [writtenMembers, List.cons_append, skipBlanks_cons (by decide), quoteOrLone]
      simp
    rw [readMembers_key, hvalue]
    simp only [hnext, hmembers, Option.bind_eq_bind, Option.bind_some]

/-- **The reader inverts the writer**, with any number of calls left. -/
theorem readsBack (bound : Nat) : L.ReadsBack bound := by
  induction bound with
  | zero =>
    refine ⟨fun level j rest h _ hb => ?_, fun level x xs rest h _ hb => ?_,
      fun level k v ms rest _ _ hb => ?_⟩
    · obtain ⟨c, cs, hcs, -⟩ := written_head (L := L) level h
      rw [hcs, List.length_cons] at hb
      omega
    · obtain ⟨c, cs, hcs, -⟩ := written_head (L := L) (level + 1) h
      rw [hcs, List.length_append, List.length_cons] at hb
      omega
    · rw [List.length_append, List.length_cons] at hb
      omega
  | succ bound ih => exact ⟨ih.value_succ hL, ih.items_succ hL, ih.members_succ hL⟩

end Layout

/-! ## Whole documents -/

/-- A text in a layout of blanks is read as the document. -/
theorem parse_written {L : Layout} (hL : L.IsBlank) {j : Json} (h : j.IsPlain) :
    parse (String.ofList (L.written 0 j)) = some j := by
  have hread := (Layout.readsBack hL (2 * (L.written 0 j).length + 2)).value 0 j [] h
    (fun _ hc => nomatch hc) (by omega)
  rw [List.append_nil] at hread
  rw [parse, String.toList_ofList]
  simp only [hread, Option.bind_eq_bind, Option.bind_some]
  rfl

/-- **The compact form is read back.** -/
theorem parse_compact {j : Json} (h : j.IsPlain) : parse j.compact = some j := by
  rw [compact, ← Layout.written_tight 0 j]
  exact parse_written Layout.isBlank_tight h

/-- **The pretty form is read back.** -/
theorem parse_pretty {j : Json} (h : j.IsPlain) : parse j.pretty = some j := by
  rw [pretty, ← Layout.written_wide 0 j]
  exact parse_written Layout.isBlank_wide h

end Michelson.Json
