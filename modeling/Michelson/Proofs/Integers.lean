import Mathlib.Data.Nat.Digits.Lemmas
import Michelson.Proofs.Documents
import Michelson.Proofs.Hereditary
import Michelson.Proofs.RoundTrip

/-!
# Integers in source text and in documents

An integer is written in decimal digits in source text, and as its sign with digits in base
`2 ^ 32` in documents. Neither loses anything, and documents have one spelling for each integer.

* `Literal.Spells` is the relation between what is written in source text and the integer.
* `Numeral.AreLimbs` is the relation between digits in a document and the number, and
  `Numeral.areLimbs_iff` says that the digits are those that are written.
* `Grammar.int_of_value` says that integers are read by the rule for integers alone, and
  `Grammar.integerLiteral_eq_ok` that this rule takes digits up to the end of a word.
-/

namespace Michelson

open Rule Grammar

/-! ## Digits in documents -/

namespace Numeral

/-- Digits of a number in base `2 ^ 32`, the least significant first. The last is not zero. -/
structure AreLimbs (ds : List Nat) (n : Nat) : Prop where
  lt : ∀ d ∈ ds, d < 2 ^ 32
  last : ds.getLast? ≠ some 0
  value : Nat.ofDigits (2 ^ 32) ds = n

/-- **One spelling.** A number has no other digits than those that are written for it. -/
theorem areLimbs_iff {ds : List Nat} {n : Nat} : AreLimbs ds n ↔ ds = limbs n := by
  rw [limbs_eq_digits]
  constructor
  · rintro ⟨hlt, hlast, rfl⟩
    refine (Nat.digits_ofDigits _ one_lt_bound32 ds hlt fun hne heq => hlast ?_).symm
    rw [List.getLast?_eq_some_getLast hne, heq]
  · rintro rfl
    refine ⟨fun d hd => Nat.digits_lt_base one_lt_bound32 hd, fun hlast => ?_,
      Nat.ofDigits_digits _ _⟩
    obtain ⟨hne, heq⟩ := List.mem_getLast?_eq_getLast hlast
    exact Nat.getLast_digit_ne_zero _ (Nat.digits_ne_nil_iff_ne_zero.mp hne) heq.symm

end Numeral

theorem Form.signOf_eq_sign (z : Int) : signOf z = z.sign := by
  rw [signOf]
  split_ifs with hneg hzero
  · exact (Int.sign_eq_neg_one_of_neg hneg).symm
  · rw [hzero, Int.sign_zero]
  · exact (Int.sign_eq_one_of_pos (by omega)).symm

/-- The document of an integer has its sign and its digits. -/
theorem Data.document_int {z : Int} {ds : List Nat} (h : Numeral.AreLimbs ds z.natAbs) :
    (Data.int z).document = .object [(some "Int",
      .array [.integer z.sign, .array (ds.map fun (d : Nat) => .integer d)])] := by
  rw [Numeral.areLimbs_iff.mp h, ← Form.signOf_eq_sign]
  rfl

theorem Json.brackets_map {α : Type} {f : α → Json} (h : ∀ a, (f a).brackets = 0) (as : List α) :
    bracketsOfItems (as.map f) = 0 := by
  induction as with
  | nil => rfl
  | cons a as ih => rw [List.map_cons, bracketsOfItems, h, ih, Nat.max_self]

/-- An integer is read back from its document. -/
theorem Data.isReadBack_int (z : Int) : IsReadBack ofDocument? (.int z) (Data.int z).document := by
  refine isReadBack_of_inverts (Form.plain_document _) ((inverts_tied _).data _) ?_
  rw [document_int (Numeral.areLimbs_iff.mpr rfl)]
  have hitems : Json.bracketsOfItems
      ((Numeral.limbs z.natAbs).map fun (d : Nat) => .integer d) = 0 :=
    Json.brackets_map (fun _ => rfl) _
  simp [Json.brackets, Json.bracketsOfMembers, Json.bracketsOfItems, hitems, Decoder.maxOpen]

theorem Data.compact_int_injective :
    Function.Injective fun z : Int => (Data.int z).document.compact := by
  intro z z' h
  have hread : Data.ofDocument? (Data.int z).document.compact = some (.int z) :=
    (Data.isReadBack_int z).1
  rw [show (Data.int z).document.compact = (Data.int z').document.compact from h,
    (Data.isReadBack_int z').1] at hread
  exact (Data.int.inj (Option.some.inj hread)).symm

/-! ## Digits in source text -/

namespace Literal

/-- A sign and digits that denote an integer: there is a digit, and the absolute value is the
sum of the digits by their places. -/
structure Spells (negative : Bool) (digits : List Char) (z : Int) : Prop where
  ne_nil : digits ≠ []
  isDigit : ∀ c ∈ digits, c.isDigit = true
  value : z = (if negative then -1 else 1) *
    (Nat.ofDigits 10 (digits.reverse.map fun c => c.toNat - '0'.toNat) : Nat)

variable {negative : Bool} {digits : List Char} {z : Int}

theorem integerValue_eq (h : ∀ c ∈ digits, c.isDigit = true) :
    integerValue negative digits = (if negative then -1 else 1) *
      (Nat.ofDigits 10 (digits.reverse.map fun c => c.toNat - '0'.toNat) : Nat) := by
  have hmap : (digits.reverse.map fun c => (Numeral.digit? 10 c).getD 0) =
      digits.reverse.map fun c => c.toNat - '0'.toNat := by
    refine List.map_congr_left fun c hc => ?_
    rw [Numeral.digit?_of_isDigit (h c (List.mem_reverse.mp hc)), Option.getD_some]
  rw [integerValue, Numeral.value_eq_ofDigits, hmap]
  cases negative
  · rw [if_neg Bool.false_ne_true, if_neg Bool.false_ne_true, Int.one_mul]
  · rw [if_pos rfl, if_pos rfl, Int.neg_one_mul]

/-- The tokens of integers are what denotes one. -/
theorem spells_iff : Spells negative digits z ↔
    (Token.integer negative digits).isValid = true ∧ integerValue negative digits = z := by
  rw [Token.isValid, Bool.and_eq_true, Bool.not_eq_true', List.isEmpty_eq_false_iff,
    List.all_eq_true]
  constructor
  · rintro ⟨hne, hdigits, rfl⟩
    exact ⟨⟨hne, hdigits⟩, integerValue_eq hdigits⟩
  · rintro ⟨⟨hne, hdigits⟩, rfl⟩
    exact ⟨hne, hdigits, integerValue_eq hdigits⟩

end Literal

/-! ## What the rules read -/

namespace Grammar

variable {limit : Option Nat} {s t : State} {z : Int}

/-- The rule for integers takes all the digits, and the word ends behind them. -/
theorem integerLiteral_eq_ok {d : Data} (h : integerLiteral limit s = ⟨.ok d, t⟩) :
    ∃ negative digits z behind, d = .int z ∧ Literal.Spells negative digits z ∧
      s.cursor.rest = (Token.integer negative digits).text ++ behind ∧
        ∀ c, behind.head? = some c → isWordChar c = false := by
  rw [integerLiteral_eq] at h
  obtain ⟨token, behind, hrest, hv, he, htable⟩ := lexical_integer.eq_ok h
  cases token with
  | integer negative digits =>
    cases htable
    exact ⟨negative, digits, _, behind, rfl, Literal.spells_iff.mpr ⟨hv, rfl⟩, hrest,
      fun c hc => Token.not_isWordChar_of_endsBefore he c hc⟩
  | _ => cases htable

/-- Where a word goes on behind digits the rule for integers misses. -/
theorem integerLiteral_misses {negative : Bool} {digits behind : List Char} {c : Char}
    (h : Literal.Spells negative digits z) (hc : isWordChar c = true) (hd : c.isDigit = false)
    (hs : s.cursor.rest = (Token.integer negative digits).text ++ c :: behind) :
    integerLiteral limit s = ⟨.miss, s.expect .integer⟩ := by
  have hstop : ∀ d, (c :: behind).head? = some d → d.isDigit = false := by
    rintro _ ⟨⟩
    exact hd
  have hend : endsWord (c :: behind) = false := by rw [endsWord, hc, Bool.not_true]
  rw [integerLiteral_eq, lexical_run, hs, lookInteger_text (Literal.spells_iff.mp h).1 hstop, hend]
  rfl

/-- The other rules for values return no integers. -/
theorem not_returns_int : ∀ r ∈ [codeLiteral Knot.full, stringLiteral, bytesLiteral,
    dataWord Knot.full, mapLiteral Knot.full, sequenceLiteral Knot.full], ¬r.Returns (.int z) := by
  simp only [List.forall_mem_cons]
  refine ⟨fun h => ?code, fun h => ?string, fun h => ?bytes, fun h => ?word, fun h => ?map,
    fun h => ?sequence, by simp⟩
  case code | sequence =>
    obtain ⟨_, -, h⟩ := returns_bind h
    cases returns_pure h
  case string =>
    -- what a lexical rule returns is what its table has for the token
    rw [stringLiteral_eq] at h
    obtain ⟨token, htable⟩ := lexical_string.returns h
    unfold readString at htable
    split at htable
    · split at htable <;> cases htable
    · cases htable
  case bytes =>
    rw [bytesLiteral_eq] at h
    obtain ⟨token, htable⟩ := lexical_bytes.returns h
    unfold readBytes at htable
    split at htable
    · split at htable <;> cases htable
    · cases htable
  case word =>
    rw [dataWord_eq] at h
    obtain ⟨head, -, h⟩ := returns_bind h
    cases head with
    | constant c => cases returns_pure h
    | wrapped w =>
      obtain ⟨_, -, h⟩ := returns_bind h
      cases returns_pure h
    | pair =>
      obtain ⟨_, -, h⟩ := returns_bind h
      obtain ⟨_, -, h⟩ := returns_bind h
      cases returns_pure h
  case map =>
    obtain ⟨es, -, h⟩ := returns_bind h
    cases es with
    | nil =>
      obtain ⟨_, _, _, h⟩ := h
      cases h
    | cons e es => cases returns_pure h

theorem int_of_plainValue (h : plainValue Knot.full limit s = ⟨.ok (.int z), t⟩) :
    ∃ u, integerLiteral limit s = ⟨.ok (.int z), u⟩ := by
  rw [plainValue, firstOf, optional_bind] at h
  rcases hrun : integerLiteral limit s with ⟨d | _ | _, u⟩ <;> rw [hrun] at h
  · obtain rfl := Verdict.ok.inj (Reply.mk.inj h).1
    exact ⟨u, rfl⟩
  · obtain ⟨r, hr, hreturns⟩ := returns_firstOf ⟨limit, _, t, h⟩
    exact absurd hreturns (not_returns_int r hr)
  · cases (Reply.mk.inj h).1

/-- An integer that stands in no parentheses is read by the rule for integers. -/
theorem int_of_value (hopen : s.cursor.rest.head? ≠ some '(')
    (h : Knot.full.value limit s = ⟨.ok (.int z), t⟩) :
    ∃ u, integerLiteral limit { s with depth := s.depth + 1 } = ⟨.ok (.int z), u⟩ := by
  rw [← valueRule_full, valueRule_eq] at h
  obtain ⟨u, h⟩ := nested_eq_ok h
  have hplain := attempt_eq_ok h
  rw [unlessOpen_run, if_neg hopen] at hplain
  exact int_of_plainValue hplain

/-- No integer is read where a word goes on behind digits. -/
theorem value_ne_int {negative : Bool} {digits behind : List Char} {c : Char}
    (h : Literal.Spells negative digits z) (hc : isWordChar c = true) (hd : c.isDigit = false)
    (hs : s.cursor.rest = (Token.integer negative digits).text ++ c :: behind) (z' : Int) :
    Knot.full.value limit s ≠ ⟨.ok (.int z'), t⟩ := by
  intro hrun
  have hopen : s.cursor.rest.head? ≠ some '(' := by
    obtain ⟨d, ds, htext, -⟩ := Token.exists_text_eq (Literal.spells_iff.mp h).1
    have hstart := Token.mayStart_of_text (Literal.spells_iff.mp h).1 htext
    rw [hs, htext]
    rintro ⟨⟩
    exact absurd hstart (by decide : ¬('(' == '-' || '('.isDigit) = true)
  obtain ⟨u, hint⟩ := int_of_value hopen hrun
  rw [integerLiteral_misses (s := { s with depth := s.depth + 1 }) h hc hd hs] at hint
  cases (Reply.mk.inj hint).1

end Grammar

section Parsing

variable {negative : Bool} {digits front back : List Char} {z : Int}

theorem Data.parse_spells (h : Literal.Spells negative digits z) (hf : IsLayout front)
    (hb : IsLayout back) :
    Data.parse (String.ofList (front ++ (Token.integer negative digits).text ++ back)) =
      .ok (.int z) := by
  obtain ⟨hv, rfl⟩ := Literal.spells_iff.mp h
  have hwritten := written_integerLiteral (s := .plain) hv
  rw [Style.around_plain] at hwritten
  exact parse_token hwritten hf hb

theorem Data.parse_ne_int {behind : List Char} {c : Char} (h : Literal.Spells negative digits z)
    (hc : isWordChar c = true) (hd : c.isDigit = false) (hf : IsLayout front) (z' : Int) :
    Data.parse (String.ofList (front ++ (Token.integer negative digits).text ++ c :: behind)) ≠
      .ok (.int z') := by
  intro hparse
  rw [Data.parse, String.toList_ofList, List.append_assoc] at hparse
  obtain ⟨s, t, u, hlayout, hvalue, -⟩ := parts_of_run respected_value hparse
  have hfills : Layout.Fills front ((Token.integer negative digits).text ++ c :: behind) :=
    Layout.fills_of_isLayout hf (Token.fills_text (Literal.spells_iff.mp h).1 _)
  have hpast := layout_past hfills
    (s := State.initial (front ++ ((Token.integer negative digits).text ++ c :: behind))) rfl none
  rw [hpast] at hlayout
  obtain rfl := (Reply.mk.inj hlayout).2
  exact value_ne_int h hc hd (State.rest_past rfl) z' hvalue

end Parsing

/-- **Integers are exact.** Each integer can be written in digits, and in whatever way it is
written, it is read as this integer. Its document has its sign and its digits in base `2 ^ 32`,
of which it has one list, so two literals have the same document if and only if they denote the
same integer; and a document is read as its integer, for which the same is written again.

Integers are read by the rule for integers alone, which takes all digits up to the end of a
word. Where a word goes on behind digits this rule misses, and nothing else reads an integer
there. -/
theorem integers_are_exact :
    (∀ z, ∃ negative digits, Literal.Spells negative digits z) ∧
    (∀ front back negative digits z, IsLayout front → IsLayout back →
      Literal.Spells negative digits z →
      Data.parse (String.ofList (front ++ (Token.integer negative digits).text ++ back)) =
        .ok (.int z)) ∧
    (∀ z : Int, (∃ ds, Numeral.AreLimbs ds z.natAbs) ∧ ∀ ds, Numeral.AreLimbs ds z.natAbs →
      z.sign * (Nat.ofDigits (2 ^ 32) ds : Nat) = z ∧
      (Data.int z).document = .object [(some "Int",
        .array [.integer z.sign, .array (ds.map fun (d : Nat) => .integer d)])]) ∧
    (∀ negative digits z negative' digits' z', Literal.Spells negative digits z →
      Literal.Spells negative' digits' z' →
      ((Data.parse (String.ofList (Token.integer negative digits).text)).map
          (fun d => d.document.compact) =
        (Data.parse (String.ofList (Token.integer negative' digits').text)).map
          (fun d => d.document.compact) ↔ z = z')) ∧
    (∀ z : Int, Data.ofDocument? (Data.int z).document.compact = some (.int z) ∧
      (Data.ofDocument? (Data.int z).document.compact).map (fun d => d.document.compact) =
        some (Data.int z).document.compact) ∧
    (∀ (limit : Option Nat) (s t : State) (z : Int), s.cursor.rest.head? ≠ some '(' →
      Knot.full.value limit s = ⟨.ok (.int z), t⟩ →
      ∃ negative digits behind, Literal.Spells negative digits z ∧
        s.cursor.rest = (Token.integer negative digits).text ++ behind ∧
        ∀ c, behind.head? = some c → isWordChar c = false) ∧
    (∀ (limit : Option Nat) (s : State) (negative : Bool) (digits behind : List Char) (c : Char)
      (z : Int), Literal.Spells negative digits z → isWordChar c = true → c.isDigit = false →
      s.cursor.rest = (Token.integer negative digits).text ++ c :: behind →
      integerLiteral limit s = ⟨.miss, s.expect .integer⟩ ∧
        ∀ z' t, Knot.full.value limit s ≠ ⟨.ok (.int z'), t⟩) ∧
    ∀ (front : List Char) (negative : Bool) (digits behind : List Char) (c : Char) (z : Int),
      IsLayout front → Literal.Spells negative digits z → isWordChar c = true →
      c.isDigit = false → ∀ z',
      Data.parse (String.ofList (front ++ (Token.integer negative digits).text ++ c :: behind)) ≠
        .ok (.int z') := by
  refine ⟨fun z => ?_, fun front back negative digits z hf hb h => Data.parse_spells h hf hb,
    fun z => ⟨⟨_, Numeral.areLimbs_iff.mpr rfl⟩, fun ds h => ⟨?_, Data.document_int h⟩⟩,
    fun negative digits z negative' digits' z' h h' => ?_, fun z => ?_,
    fun limit s t z hopen h => ?_, fun limit s negative digits behind c z h hc hd hs =>
      ⟨integerLiteral_misses h hc hd hs, fun z' t => value_ne_int h hc hd hs z'⟩,
    fun front negative digits behind c z hf h hc hd => Data.parse_ne_int h hc hd hf⟩
  · exact ⟨_, _, Literal.spells_iff.mpr ⟨Token.isValid_ofInt z, Literal.integerValue_ofInt z⟩⟩
  · rw [h.value]
    exact Int.sign_mul_natAbs z
  · have hparse := Data.parse_spells h .empty .empty
    have hparse' := Data.parse_spells h' .empty .empty
    rw [List.nil_append, List.append_nil] at hparse hparse'
    rw [hparse, hparse']
    exact ⟨fun heq => Data.compact_int_injective (Except.ok.inj heq), fun heq => heq ▸ rfl⟩
  · have hread : Data.ofDocument? (Data.int z).document.compact = some (.int z) :=
      (Data.isReadBack_int z).1
    exact ⟨hread, by rw [hread, Option.map_some]⟩
  · obtain ⟨u, hint⟩ := int_of_value hopen h
    obtain ⟨negative, digits, z', behind, hz, hspells, hrest, hend⟩ := integerLiteral_eq_ok hint
    cases hz
    exact ⟨negative, digits, behind, hspells, hrest, hend⟩

/-- A multiple of `2 ^ 32` has a digit that is zero, but not as the last. -/
example : (Data.int (-0x100000000)).document.compact = "\x7b\"Int\":[-1,[0,1]]\x7d" := by
  decide +kernel

end Michelson
