import Michelson.Proofs.Advancing
import Michelson.Proofs.RoundTrip

/-!
# Bytes in source text

A bytes literal has two digits for each byte, in either case. With a digit missing it halts the
rule for it, and where a word goes on behind the digits there is no literal at all.

* `Numeral.areHexOf_iff` says that the digits of bytes are what is read as these bytes.
* `Grammar.bytesLiteral_raises` and `Grammar.value_raises` say that a missing digit is fatal.
* `Grammar.stays_at_wordy` says that no rule passes digits behind which a word goes on.
-/

namespace Michelson

open Rule Grammar

/-! ## Digits -/

namespace Numeral

/-- Hexadecimal digits that denote bytes, two digits a byte. Their case does not matter. -/
structure AreHexOf (digits : List Char) (bytes : List UInt8) : Prop where
  isDigit : digits.all (isDigit 16) = true
  length : digits.length = 2 * bytes.length
  lower : digits.map Char.toLower = hexBytes bytes

variable {digits : List Char} {bytes : List UInt8}

/-- A hexadecimal digit, in lower case, is the one that is written for its value. -/
theorem digit?_hex {c : Char} {n : Nat} (h : digit? 16 c = some n) :
    n < 16 ∧ c.toLower = Nat.digitChar n := by
  have hall : ∀ k < 128, ∀ n ∈ digit? 16 (Char.ofNat k), n < 16 ∧
      (Char.ofNat k).toLower = Nat.digitChar n := by decide
  have hword : isWordChar c = true := isWordChar_of_isHex (by rw [Numeral.isDigit, h]; rfl)
  have hk : c.toNat < 128 := by
    have := isWordChar_bounds hword
    omega
  have hc := hall c.toNat hk n
  rw [Char.ofNat_toNat] at hc
  exact hc h

theorem hexByte_ofNat {high low : Nat} (hh : high < 16) (hl : low < 16) :
    hexByte (UInt8.ofNat (high * 16 + low)) = [Nat.digitChar high, Nat.digitChar low] := by
  have hn : (UInt8.ofNat (high * 16 + low)).toNat = high * 16 + low :=
    UInt8.toNat_ofNat_of_lt' (by change _ < 256; omega)
  rw [hexByte, hn, show (high * 16 + low) / 16 = high by omega,
    show (high * 16 + low) % 16 = low by omega]

theorem AreHexOf.of_ofHex? (h : ofHex? digits = some bytes) : AreHexOf digits bytes := by
  induction digits using ofHex?.induct generalizing bytes with
  | case1 =>
    cases h
    exact ⟨rfl, rfl, rfl⟩
  | case2 => cases h
  | case3 high low rest ih =>
    simp only [ofHex?, Option.bind_eq_bind, Option.bind_eq_some_iff] at h
    obtain ⟨m, hm, n, hn, bytes, hrest, hbytes⟩ := h
    obtain rfl := Option.some.inj hbytes
    obtain ⟨hm16, hhigh⟩ := digit?_hex hm
    obtain ⟨hn16, hlow⟩ := digit?_hex hn
    obtain ⟨hdigits, hlength, hlower⟩ := ih hrest
    refine ⟨?_, ?_, ?_⟩
    · simp [Numeral.isDigit, hm, hn, hdigits]
    · simp only [List.length_cons]
      omega
    · rw [hexBytes, List.flatMap_cons, hexByte_ofNat hm16 hn16, ← hhigh, ← hlow, ← hexBytes,
        ← hlower]
      rfl

/-- Digits in an even number denote bytes, and no others do. -/
theorem isSome_ofHex? (h : digits.all (isDigit 16) = true) :
    (ofHex? digits).isSome = (digits.length % 2 == 0) := by
  induction digits using ofHex?.induct with
  | case1 => rfl
  | case2 => rfl
  | case3 high low rest ih =>
    simp only [List.all_cons, Bool.and_eq_true] at h
    obtain ⟨m, hm⟩ := Option.isSome_iff_exists.mp h.1
    obtain ⟨n, hn⟩ := Option.isSome_iff_exists.mp h.2.1
    have hrest := ih h.2.2
    simp only [ofHex?, hm, hn, Option.bind_eq_bind, Option.bind_some, List.length_cons,
      Nat.add_assoc, Nat.add_mod_right, ← hrest]
    cases ofHex? rest <;> rfl

theorem exists_areHexOf (h : digits.all (isDigit 16) = true) (heven : digits.length % 2 = 0) :
    ∃ bytes, AreHexOf digits bytes := by
  have hsome := isSome_ofHex? h
  rw [heven, beq_self_eq_true] at hsome
  obtain ⟨bytes, hbytes⟩ := Option.isSome_iff_exists.mp hsome
  exact ⟨bytes, .of_ofHex? hbytes⟩

theorem ofHex?_eq_none (h : digits.all (isDigit 16) = true) (hodd : digits.length % 2 = 1) :
    ofHex? digits = none := by
  have hsome := isSome_ofHex? h
  rwa [hodd, show ((1 : Nat) == 0) = false from rfl, Option.isSome_eq_false_iff,
    Option.isNone_iff_eq_none] at hsome

/-- **Digits and bytes.** What is read as some bytes are their digits, in either case. -/
theorem areHexOf_iff : AreHexOf digits bytes ↔ ofHex? digits = some bytes := by
  refine ⟨fun h => ?_, .of_ofHex?⟩
  have hsome := isSome_ofHex? h.isDigit
  rw [h.length, Nat.mul_mod_right, beq_self_eq_true] at hsome
  obtain ⟨bytes', hbytes'⟩ := Option.isSome_iff_exists.mp hsome
  rw [hbytes', hexBytes_injective ((AreHexOf.of_ofHex? hbytes').lower.symm.trans h.lower)]

end Numeral

/-! ## What the rules read -/

namespace Rule

variable {α : Type} {limit : Option Nat} {s t : State} {r last : Rule α} {rs : List (Rule α)}

/-- Where the first rule misses, the others are tried. -/
theorem firstOf_past (h : r limit s = ⟨.miss, t⟩) :
    firstOf last (r :: rs) limit s = firstOf last rs limit { t with cursor := s.cursor } := by
  rw [firstOf, optional_bind, h]

theorem firstOf_halts {stop : Stop} (h : (r limit s).verdict = .halt stop) :
    (firstOf last (r :: rs) limit s).verdict = .halt stop :=
  bind_halts (optional_halts h)

end Rule

/-- Digits behind which a word goes on. -/
structure Literal.IsWordy (digits behind : List Char) : Prop where
  isDigit : digits.all (Numeral.isDigit 16) = true
  goesOn : ∃ c, behind.head? = some c ∧ isWordChar c = true ∧ Numeral.isDigit 16 c = false

namespace Grammar

open Literal

variable {limit : Option Nat} {s t : State} {digits behind : List Char}

/-- What the rule makes of digits that end where no further one stands. -/
theorem lookBytes_text (h : digits.all (Numeral.isDigit 16) = true)
    (hb : ∀ c, behind.head? = some c → Numeral.isDigit 16 c = false) :
    lookBytes ('0' :: 'x' :: (digits ++ behind)) =
      if endsWord behind then
        match Numeral.ofHex? digits with
        | some bytes => .taken (digits.length + 2) (.bytes bytes)
        | none => .stopped fun p => .literal p (.oddHexDigits (String.ofList ('0' :: 'x' :: digits)))
      else .refused 0 .bytes := by
  cases hbytes : Numeral.ofHex? digits <;>
    simp only [lookBytes, takeWhile_append_eq h hb, List.drop_left, hbytes]

theorem bytesLiteral_misses (h : IsWordy digits behind)
    (hs : s.cursor.rest = '0' :: 'x' :: (digits ++ behind)) :
    bytesLiteral limit s = ⟨.miss, s.expect .bytes⟩ := by
  obtain ⟨hdigits, c, hc, hword, hhex⟩ := h
  have hstop : ∀ d, behind.head? = some d → Numeral.isDigit 16 d = false := by
    intro d hd
    rwa [Option.some.inj (hd.symm.trans hc)]
  have hend : endsWord behind = false := by
    rw [endsWord_eq, hc, Option.all_some, hword, Bool.not_true]
  rw [bytesLiteral_eq, lexical_run, hs, lookBytes_text hdigits hstop, hend]
  rfl

/-- **Half a byte is fatal.** The rule halts at the literal. -/
theorem bytesLiteral_raises (h : digits.all (Numeral.isDigit 16) = true)
    (hodd : Numeral.ofHex? digits = none)
    (hb : ∀ c, behind.head? = some c → isWordChar c = false)
    (hs : s.cursor.rest = '0' :: 'x' :: (digits ++ behind)) :
    bytesLiteral limit s = raise (.literal s.cursor.position
      (.oddHexDigits (String.ofList ('0' :: 'x' :: digits)))) limit s := by
  have hstop : ∀ c, behind.head? = some c → Numeral.isDigit 16 c = false :=
    fun c hc => not_isHex_of_not_isWordChar (hb c hc)
  have hend : endsWord behind = true := by
    rw [endsWord_eq, Option.all_eq_true]
    intro c hc
    rw [hb c hc, Bool.not_false]
  rw [bytesLiteral_eq, lexical_run, hs, lookBytes_text h hstop, if_pos hend, hodd]
  rfl

/-- The rule for bytes takes all the digits, and the word ends behind them. -/
theorem bytesLiteral_eq_ok {d : Data} (h : bytesLiteral limit s = ⟨.ok d, t⟩) :
    ∃ digits bytes behind, d = .bytes bytes ∧ Numeral.AreHexOf digits bytes ∧
      s.cursor.rest = '0' :: 'x' :: (digits ++ behind) ∧
        ∀ c, behind.head? = some c → isWordChar c = false := by
  rw [bytesLiteral_eq] at h
  obtain ⟨token, behind, hrest, hv, he, htable⟩ := lexical_bytes.eq_ok h
  cases token with
  | bytes digits =>
    rw [readBytes] at htable
    split at htable
    · rename_i bytes hbytes
      cases htable
      exact ⟨digits, bytes, behind, rfl, .of_ofHex? hbytes, hrest,
        Token.not_isWordChar_of_endsBefore he⟩
    · cases htable
  | _ => cases htable

/-- At its marker the rule for values halts where the rule for bytes does. -/
theorem value_raises {cs : List Char} {e : Error} (hs : s.cursor.rest = '0' :: 'x' :: cs)
    (h : ∀ t : State, t.cursor = s.cursor → (bytesLiteral none t).verdict = .halt (.error e)) :
    (Knot.full.value none s).verdict = .halt (.error e) := by
  have hinteger (t : State) (ht : t.cursor = s.cursor) :
      integerLiteral none t = ⟨.miss, t.expect .integer⟩ := by
    have hscan : scanInteger ('0' :: 'x' :: cs) = (false, ['0']) := by
      rw [scanInteger_of_ne (by decide), List.takeWhile_cons_of_pos (by decide),
        List.takeWhile_cons_of_neg (by decide)]
    rw [integerLiteral_eq, lexical_run, ht, hs, lookInteger, hscan]
    rfl
  have hstring (t : State) (ht : t.cursor = s.cursor) :
      stringLiteral none t = ⟨.miss, t.expect .string⟩ := by
    rw [stringLiteral_eq, lexical_run, ht, hs, lookString_of_ne (by simp)]
    rfl
  let deep : State := { s with depth := s.depth + 1 }
  let past : State := { deep.expect .integer with cursor := deep.cursor }
  have hplain : (plainValue Knot.full none deep).verdict = .halt (.error e) := by
    rw [plainValue, firstOf_past (hinteger deep rfl), firstOf_past (hstring past rfl)]
    exact firstOf_halts (h _ rfl)
  rw [← valueRule_full, valueRule_eq, nested_none, deeper]
  refine attempt_halts ?_
  rw [unlessOpen_run, if_neg (by rw [hs]; simp)]
  exact hplain

/-! ### Where a word goes on -/

/-- A token at the marker of a bytes literal is one, and its word ends behind it. -/
theorem not_steps_at_wordy {c c' : Cursor} (h : IsWordy digits behind)
    (hc : c.rest = '0' :: 'x' :: (digits ++ behind)) : ¬c.Steps c' := by
  rintro ⟨l, hpass, hfit⟩
  have htext := hpass.1
  rw [hc, Lexeme.text, List.append_assoc] at htext
  have hbytes : ∃ digits', l.token = .bytes digits' := by
    by_contra hno
    exact text_append_ne hfit.isValid hfit.endsBefore (fun ds hds => hno ⟨ds, hds⟩) _ htext.symm
  obtain ⟨digits', htoken⟩ := hbytes
  have hv := hfit.isValid
  have he := hfit.endsBefore
  rw [htoken] at hv he htext
  have hword := Token.not_isWordChar_of_endsBefore he
  obtain ⟨hdigits, d, hd, hdword, hdhex⟩ := h
  -- both are the longest run of digits behind the marker
  have hrun : (digits ++ behind).takeWhile (Numeral.isDigit 16) = digits := by
    refine takeWhile_append_eq hdigits fun c hc => ?_
    rwa [Option.some.inj (hc.symm.trans hd)]
  have hrun' : (digits' ++ (l.gap ++ c'.rest)).takeWhile (Numeral.isDigit 16) = digits' :=
    takeWhile_append_eq hv fun c hc => not_isHex_of_not_isWordChar (hword c hc)
  have heq : digits ++ behind = digits' ++ (l.gap ++ c'.rest) :=
    (List.cons.inj (List.cons.inj htext).2).2
  rw [heq, hrun'] at hrun
  rw [hrun, List.append_cancel_left_eq] at heq
  have hno := hword d (heq ▸ hd)
  rw [hdword] at hno
  cases hno

/-- **No rule passes digits behind which a word goes on.** -/
theorem stays_at_wordy {α : Type} {rule : Knot → Rule α} (hr : Respected rule) {a : α}
    (h : IsWordy digits behind) (hs : s.cursor.rest = '0' :: 'x' :: (digits ++ behind))
    (hrun : rule Knot.full limit s = ⟨.ok a, t⟩) : t.cursor = s.cursor := by
  have hsteps := steps_of_run hr (rule_ok_of_limit hr hrun)
  rcases hsteps.cases_head with heq | ⟨c, hstep, -⟩
  · exact heq.symm
  · exact absurd hstep (not_steps_at_wordy h hs)

/-- No value is read where a word goes on behind digits. -/
theorem value_ne_ok_at_wordy {d : Data} (h : IsWordy digits behind)
    (hs : s.cursor.rest = '0' :: 'x' :: (digits ++ behind)) :
    Knot.full.value limit s ≠ ⟨.ok d, t⟩ := by
  intro hrun
  have htied : (Knot.enough s.cursor.rest.length).value limit s = ⟨.ok d, t⟩ := hrun
  have hlt := (Knot.advancing_tied _).value limit s d t htied
  rw [stays_at_wordy respected_value h hs hrun] at hlt
  exact lt_irrefl _ hlt

end Grammar

/-! ## Whole texts -/

section Parsing

open Literal

variable {digits behind front back : List Char} {bytes : List UInt8}

theorem Data.parse_areHexOf (h : Numeral.AreHexOf digits bytes) (hf : IsLayout front)
    (hb : IsLayout back) :
    Data.parse (String.ofList (front ++ '0' :: 'x' :: (digits ++ back))) = .ok (.bytes bytes) := by
  have hwritten := written_bytesLiteral (s := .plain) h.isDigit (Numeral.areHexOf_iff.mp h)
  rw [Style.around_plain] at hwritten
  have htext : front ++ (Token.bytes digits).text ++ back = front ++ '0' :: 'x' :: (digits ++ back) := by
    simp [Token.text]
  rw [← htext]
  exact parse_token hwritten hf hb

/-- The marker of a bytes literal is no layout. -/
theorem Layout.fills_marker (hf : IsLayout front) (cs : List Char) :
    Layout.Fills front ('0' :: 'x' :: cs) :=
  fills_of_isLayout hf (fills_nil_cons (by decide) (by decide) (by decide) _)

theorem Data.parse_oddHexDigits (h : digits.all (Numeral.isDigit 16) = true)
    (hodd : Numeral.ofHex? digits = none) (hf : IsLayout front)
    (hb : ∀ c, behind.head? = some c → isWordChar c = false) :
    Data.parse (String.ofList (front ++ '0' :: 'x' :: (digits ++ behind))) =
      .error (.literal (Position.start.after front)
        (.oddHexDigits (String.ofList ('0' :: 'x' :: digits)))) := by
  let s := State.initial (front ++ '0' :: 'x' :: (digits ++ behind))
  have hrest : (s.past front).cursor.rest = '0' :: 'x' :: (digits ++ behind) := State.rest_past rfl
  have hposition : (s.past front).cursor.position = Position.start.after front :=
    (Cursor.passes_skip (c := s.cursor) rfl).2
  have hvalue : (Knot.full.value none (s.past front)).verdict = .halt (.error (.literal
      (Position.start.after front) (.oddHexDigits (String.ofList ('0' :: 'x' :: digits))))) := by
    refine value_raises hrest fun t ht => ?_
    rw [bytesLiteral_raises h hodd hb (by rw [ht, hrest]), ht, hposition]
    rfl
  rw [Data.parse, String.toList_ofList, run_eq_full respected_value,
    whole_of_layout _ (layout_past (Layout.fills_marker hf _) (s := s) rfl none), Reply.result,
    bind_halts hvalue]

/-- A text that begins with digits behind which a word goes on is not read at all. -/
theorem Grammar.run_wordy {α : Type} {rule : Knot → Rule α} (hr : Respected rule) {a : α}
    (h : IsWordy digits behind) (hf : IsLayout front) :
    (run rule none (front ++ '0' :: 'x' :: (digits ++ behind))).result ≠ .ok a := by
  intro hparse
  let start := State.initial (front ++ '0' :: 'x' :: (digits ++ behind))
  have hrest : (start.past front).cursor.rest = '0' :: 'x' :: (digits ++ behind) :=
    State.rest_past rfl
  obtain ⟨s, t, u, hlayout, hrule, hend⟩ := parts_of_run hr hparse
  rw [layout_past (Layout.fills_marker hf _) (s := start) rfl none] at hlayout
  obtain rfl := (Reply.mk.inj hlayout).2
  have hnil := (endOfInput_ok hend).1
  rw [stays_at_wordy hr h hrest hrule, hrest] at hnil
  cases hnil

end Parsing

end Michelson
