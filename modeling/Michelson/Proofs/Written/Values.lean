import Michelson.Proofs.BlockValue
import Michelson.Proofs.Escapes
import Michelson.Proofs.Numerals
import Michelson.Proofs.Sections
import Michelson.Proofs.Written.Types

/-!
# Written values

The tokens of each kind of value are read as the value, if those of its parts are.

* `written_int`, `written_string` and `written_bytes` read literals back: numbers from
  their digits and texts from what is escaped.
* Of the readings of a value in braces each is tried where the ones before it miss:
  `written_map`, `written_seq` and `written_code`.
-/

namespace Michelson

open Rule Grammar

variable {s : Style}

/-! ## Strings -/

namespace Literal

/-- The printer writes a text as itself, with the quotes and the backslashes escaped. -/
theorem writes_writtenText (text : List Char) : Writes (text.flatMap Token.writtenChar) text := by
  induction text with
  | nil => exact .nil
  | cons c text ih =>
    rw [List.flatMap_cons, Token.writtenChar]
    split
    · rename_i hc
      exact .letter (by rcases hc with rfl | rfl <;> decide) ih
    · rename_i hc
      obtain ⟨hq, hb⟩ := not_or.mp hc
      exact .raw hq hb ih

end Literal

/-! ## Literals -/

namespace Numeral

/-- Bytes are written with hexadecimal digits. -/
theorem isDigit_hexBytes (bs : List UInt8) : (hexBytes bs).all (isDigit 16) = true := by
  have hdigit {n : Nat} (hn : n < 16) : isDigit 16 (Nat.digitChar n) = true := by
    rw [isDigit, digit?_digitChar hn le_rfl, Option.isSome_some]
  rw [List.all_eq_true]
  intro c hc
  obtain ⟨b, -, hb⟩ := List.mem_flatMap.mp hc
  have hlt := b.toNat_lt
  rcases List.mem_cons.mp hb with rfl | hb
  · exact hdigit (by omega)
  · rw [List.mem_singleton.mp hb]
    exact hdigit (by omega)

end Numeral

/-- Sign and digits make up the number again. -/
theorem Literal.integerValue_ofInt (z : Int) :
    integerValue (z < 0) (Numeral.decimal z.natAbs) = z := by
  rw [integerValue, Numeral.value_decimal]
  by_cases hz : z < 0
  · rw [if_pos (by simpa using hz)]
    omega
  · rw [if_neg (by simpa using hz)]
    omega

section Literals

variable {t : Token} {d : Data}

/-- A literal, with the readings that are tried before it. -/
theorem written_literal (h : Written Any (plainValue Knot.full) [t] d) (ht : t ≠ .mark '(') :
    Written Quiet Knot.full.value (s.around [t]) d :=
  (h.mono fun _ _ => trivial).around Track.wraps_value ht s

/-- Other rules for literals leave the token. -/
theorem misses_token {α : Type} {look : List Char → Answer α} {table : Option Token → Reading α}
    (h : Lexical look table) {what : Expectation} (ht : table (some t) = .refused what) {T : Track}
    {k : Nat} {rest : List Token} (hat : T.At k ([t] ++ rest)) : T.Misses (lexical look) k :=
  Track.misses_lexical h hat.le (.inr ⟨what, by rw [hat.token?]; exact ht⟩)

/-- Digits are read as the number that they denote, whatever zeros stand in front. -/
theorem written_integerLiteral {negative : Bool} {digits : List Char}
    (h : (Token.integer negative digits).isValid = true) :
    Written Quiet Knot.full.value (s.around [.integer negative digits])
      (.int (Literal.integerValue negative digits)) := by
  refine written_literal (Written.firstOf ?_ _ _) (by rintro ⟨⟩)
  rw [integerLiteral_eq]
  exact written_lexical lexical_integer h rfl

theorem Token.isValid_ofInt (z : Int) : (ofInt z).isValid = true := by
  rw [ofInt, isValid, Numeral.isDigit_decimal, Bool.and_true]
  simpa using Numeral.decimal_ne_nil z.natAbs

theorem written_int (z : Int) : Written Quiet Knot.full.value (s.around [.ofInt z]) (.int z) := by
  have hread := written_integerLiteral (s := s) (Token.isValid_ofInt z)
  rwa [Literal.integerValue_ofInt] at hread

/-- In whatever way a string is written, it is read back. -/
theorem written_stringLiteral {w x : List Char} (h : Literal.Writes w x) :
    Written Quiet Knot.full.value (s.around [.string w]) (.string (String.ofList x)) := by
  refine written_literal ?_ (by rintro ⟨⟩)
  rw [plainValue, integerLiteral_eq, stringLiteral_eq]
  refine Written.skip (Written.firstOf ?_ _ _) (misses_token lexical_integer rfl)
  refine written_lexical lexical_string h.isClosed ?_
  rw [readString, h.content?_eq]

theorem written_string (text : String) :
    Written Quiet Knot.full.value (s.around [.ofText text]) (.string text) := by
  have hread := written_stringLiteral (s := s) (Literal.writes_writtenText text.toList)
  rwa [String.ofList_toList] at hread

/-- Digits are read as the bytes that they denote, in whatever case they are. -/
theorem written_bytesLiteral {digits : List Char} {bs : List UInt8}
    (hv : (Token.bytes digits).isValid = true) (h : Numeral.ofHex? digits = some bs) :
    Written Quiet Knot.full.value (s.around [.bytes digits]) (.bytes bs) := by
  refine written_literal ?_ (by rintro ⟨⟩)
  rw [plainValue, integerLiteral_eq, stringLiteral_eq, bytesLiteral_eq]
  refine Written.skip (Written.skip (Written.firstOf ?_ _ _) (misses_token lexical_string rfl))
    (misses_token lexical_integer rfl)
  refine written_lexical lexical_bytes hv ?_
  rw [readBytes, h]

theorem written_bytes (bs : List UInt8) :
    Written Quiet Knot.full.value (s.around [.ofBytes bs]) (.bytes bs) :=
  written_bytesLiteral (Numeral.isDigit_hexBytes bs) (Numeral.ofHex?_hexBytes bs)

end Literals

/-! ## Words -/

/-- No literal begins with a word or a mark. -/
theorem Written.past_literals {t : Token} {ts : List Token} {d : Data} {F : Option Token → Prop}
    {last : Rule Data} {rs : List (Rule Data)} (h : Written F (Rule.firstOf last rs) (t :: ts) d)
    (hi : ∃ what, readInteger (some t) = .refused what)
    (hs : ∃ what, readString (some t) = .refused what)
    (hb : ∃ what, readBytes (some t) = .refused what) :
    Written F (Rule.firstOf last (integerLiteral :: stringLiteral :: bytesLiteral :: rs))
      (t :: ts) d := by
  have hmiss {T : Track} {k : Nat} {rest : List Token} (hat : T.At k (t :: ts ++ rest)) :=
    Track.misses_literals hat.token? hi hs hb
  exact .skip (.skip (.skip h fun hat => (hmiss hat).2.2) fun hat => (hmiss hat).2.1)
    fun hat => (hmiss hat).1

theorem Data.Head.isValid_keyword (head : Data.Head) : (Token.ofWord head.keyword).isValid = true := by
  have hall : ∀ head ∈ all, (Token.ofWord head.keyword).isValid = true := by decide
  exact hall head head.mem_all

/-- A word with its parts. -/
theorem written_dataWord (head : Data.Head) {ts : List Token} {d : Data}
    (h : Written Quiet (dataParts Knot.full head) ts d) :
    Written Quiet Knot.full.value (s.around (.ofWord head.keyword :: ts)) d := by
  have hword : Written Quiet (dataWord Knot.full) (.ofWord head.keyword :: ts) d := by
    rw [dataWord_eq]
    exact (written_headWord head.isValid_keyword head.ofKeyword?_keyword).before h
  have hplain : Written Quiet (plainValue Knot.full) (.ofWord head.keyword :: ts) d :=
    (hword.firstOf _ _).past_literals ⟨_, rfl⟩ ⟨_, rfl⟩ ⟨_, rfl⟩
  exact hplain.around Track.wraps_value (ofWord_ne_mark _ _) s

/-! ## Braces -/

section Braces

variable {items : List (List Token)} {T : Track} {k : Nat} {rest : List Token}

/-- A value in braces is no literal, and it begins with no word. -/
theorem written_braces {d : Data} (h : Written Any (firstOf (codeLiteral Knot.full)
      [mapLiteral Knot.full, sequenceLiteral Knot.full]) (s.braced items) d) :
    Written Quiet Knot.full.value (s.around (s.braced items)) d := by
  have hplain : Written Any (plainValue Knot.full) (s.braced items) d := by
    refine Written.past_literals (.skip h fun hat => ?_) ⟨_, rfl⟩ ⟨_, rfl⟩ ⟨_, rfl⟩
    exact Track.misses_dataWord hat.le fun _ ht => absurd ht hat.not_word
  exact (hplain.mono fun _ _ => trivial).around Track.wraps_value (by decide) s

/-- A list with entries is read as a map, before it could be read as anything else. -/
theorem written_map {es : List Entry} (h : AreWritten (entry Knot.full) items es) (hne : es ≠ []) :
    Written Quiet Knot.full.value (s.around (s.braced items)) (.map es) := by
  refine written_braces (Written.firstOf ⟨h.valid_braced s, fun hat _ => ?_⟩ _ _)
  obtain ⟨j, hj, hend⟩ := h.exists_braced s hat
  refine ⟨j, hj.yields.bind ?_, hend⟩
  cases es with
  | nil => exact absurd rfl hne
  | cons e es => exact Track.yields_pure hj.yields.le_length _

/-- A list is no map if its items do not begin like entries. -/
theorem AreWritten.no_entry {α : Type} {r : Rule α} {as : List α} (h : AreWritten r items as)
    (hitems : ∀ ts ∈ items, ts.head? ≠ some (.ofWord "Elt"))
    (hat : T.At k (s.braced items ++ rest)) : T.token? (k + 1) ≠ some (.word "Elt".toList) := by
  have hinner := hat.succ
  rw [hinner.token?]
  cases h with
  | nil => exact fun h => nomatch h
  | @cons ts a items as hitem _ =>
    obtain ⟨us, hus⟩ := s.exists_separated ts items
    obtain ⟨t, vs, rfl, -⟩ := id hitem.1
    rw [hus]
    exact hitems (t :: vs) List.mem_cons_self

theorem written_seq {ds : List Data} (h : AreWritten Knot.full.value items ds)
    (hitems : ∀ ts ∈ items, ts.head? ≠ some (.ofWord "Elt")) :
    Written Quiet Knot.full.value (s.around (s.braced items)) (.seq ds) := by
  have hseq : Written Any (sequenceLiteral Knot.full) (s.braced items) (.seq ds) := (h.braced s).map _
  exact written_braces (.skip (hseq.firstOf _ _) fun hat =>
    Track.misses_mapLiteral hat.token? (h.no_entry hitems hat))

theorem written_code {b : Block} (h : AreWritten (step Knot.full) items b)
    (hown : Block.hasOwnStep b = true) :
    Written Quiet Knot.full.value (s.around (s.braced items)) (.code b) := by
  have hplain : Written Quiet (plainValue Knot.full) (s.braced items) (.code b) := by
    refine ⟨h.valid_braced s, fun hat _ => ?_⟩
    obtain ⟨j, hj, hend⟩ := h.exists_braced s hat
    have hread := Track.yields_plainValue_of_block hj fun _ _ _ _ hb => Track.yields_value_of_block hb
    rw [Data.ofBlock, if_pos hown] at hread
    exact ⟨j, hread, hend⟩
  exact hplain.around Track.wraps_value (by decide) s

end Braces

end Michelson
